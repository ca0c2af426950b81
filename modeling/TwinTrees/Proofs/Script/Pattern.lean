import TwinTrees.Script.Placeholder

/-!
# Placeholders by a pattern

The placeholders of a text as a regular expression finds them: from left to right, each as the
first of the matches that start at its dollar sign, in the order in which the pattern prefers them.
An alternative is preferred to those after it, and a longer repetition to a shorter one; a later
choice is made only where an earlier one leaves no match. Replacing what the pattern matches is
what `expand` does (`replaceAll_placeholder`).
-/

namespace TwinTrees.Script

/-- A pattern of text. -/
inductive Pattern
  | one (q : Char → Bool)
  /-- As many characters as possible that satisfy `q`, or fewer. -/
  | many (q : Char → Bool)
  | seq (a b : Pattern)
  | either (a b : Pattern)
  /-- A pattern whose text is kept under a number. -/
  | group (number : Nat) (a : Pattern)

/-- A match: the texts of its groups, and what follows it. -/
structure Match where
  groups : List (Nat × List Char)
  rest : List Char
  deriving DecidableEq, Repr

/-- What can follow a repetition, the longest repetition first. -/
def rests (q : Char → Bool) : List Char → List (List Char)
  | [] => [[]]
  | c :: s => if q c then rests q s ++ [c :: s] else [c :: s]

namespace Pattern

/-- The matches at the start of a text, in the order of preference. -/
def candidates : Pattern → List Char → List Match
  | .one q, c :: s => if q c then [⟨[], s⟩] else []
  | .one _, [] => []
  | .many q, s => (rests q s).map (Match.mk [])
  | .seq a b, s =>
    (a.candidates s).flatMap fun m =>
      (b.candidates m.rest).map fun m' => ⟨m.groups ++ m'.groups, m'.rest⟩
  | .either a b, s => a.candidates s ++ b.candidates s
  | .group number a, s =>
    (a.candidates s).map fun m =>
      ⟨(number, s.take (s.length - m.rest.length)) :: m.groups, m.rest⟩

/-- The text with every match that reads something replaced, from left to right. What replaces a
match is not read again. -/
def replaceAll (pattern : Pattern) (value : Match → List Char) : List Char → List Char
  | [] => []
  | c :: s =>
    match (pattern.candidates (c :: s)).head? with
    | some m =>
      if m.rest.length < s.length + 1 then value m ++ pattern.replaceAll value m.rest
      else c :: pattern.replaceAll value s
    | none => c :: pattern.replaceAll value s
  termination_by s => s.length

/-- A dollar sign, and then text in braces, a brace, a character that is a name by itself, or a
name. -/
def placeholder : Pattern :=
  .seq (.one (· == '$'))
    (.either (.seq (.one (· == '{')) (.seq (.group 1 (.many (· != '}'))) (.one (· == '}'))))
      (.either (.one (· == '{'))
        (.either (.group 2 (.one isSpecialName))
          (.group 3 (.seq (.one isNameStart) (.many isNameChar))))))

end Pattern

/-- The text of the group with the number, if the match has one. -/
def Match.group? (m : Match) (number : Nat) : Option (List Char) :=
  m.groups.lookup number

/-- The name that a placeholder refers to. -/
def Match.name (m : Match) : List Char :=
  (m.group? 1 <|> m.group? 2 <|> m.group? 3).getD []

/-- The first match of a longest stretch, where a shorter one cannot be followed. -/
theorem flatMap_rests {α : Type} {q : Char → Bool} {f : List Char → List α}
    (h : ∀ c s, q c = true → f (c :: s) = []) (s : List Char) :
    (rests q s).flatMap f = f (s.dropWhile q) := by
  induction s with
  | nil => simp [rests]
  | cons c s ih =>
    rw [rests]
    cases hc : q c with
    | true => simp [hc, ih, h c s hc]
    | false => simp [hc]

theorem head?_rests (q : Char → Bool) (s : List Char) :
    (rests q s).head? = some (s.dropWhile q) := by
  induction s with
  | nil => rfl
  | cons c s ih =>
    rw [rests]
    cases hc : q c with
    | true => simp [hc, ih]
    | false => simp [hc]

namespace Pattern

theorem candidates_either (a b : Pattern) (s : List Char) :
    (either a b).candidates s = a.candidates s ++ b.candidates s := rfl

theorem candidates_one (q : Char → Bool) (c : Char) (s : List Char) :
    (one q).candidates (c :: s) = if q c then [⟨[], s⟩] else [] := rfl

theorem candidates_seq_one (q : Char → Bool) (b : Pattern) (c : Char) (s : List Char) :
    (seq (.one q) b).candidates (c :: s) = if q c then b.candidates s else [] := by
  cases hc : q c <;> simp [candidates, hc]

/-- The text in braces is read up to the first closing brace, and only up to that one. -/
theorem candidates_braces (s : List Char) :
    (seq (.group 1 (.many (· != '}'))) (.one (· == '}'))).candidates s =
      match Text.splitFirst? '}' s with
      | some (text, after) => [⟨[(1, text)], after⟩]
      | none => [] := by
  let close (rest : List Char) : List Match := ((one (· == '}')).candidates rest).map fun m =>
    ⟨[(1, s.take (s.length - rest.length))] ++ m.groups, m.rest⟩
  have hclose : ∀ c rest, (c != '}') = true → close (c :: rest) = [] := by
    intro c rest hc
    have hne : (c == '}') = false := by simpa using hc
    simp [close, candidates, hne]
  have hfirst : (seq (.group 1 (.many (· != '}'))) (.one (· == '}'))).candidates s =
      close (s.dropWhile (· != '}')) := by
    rw [← flatMap_rests hclose s]
    simp [candidates, close, List.flatMap_map]
  rw [hfirst, Text.splitFirst?_eq]
  have hhead := List.head?_dropWhile_not (· != '}') s
  have htake := Text.take_sub_dropWhile (· != '}') s
  cases hdrop : s.dropWhile (· != '}') with
  | nil => simp [close, candidates]
  | cons c after =>
    rw [hdrop] at hhead htake
    have hc : c = '}' := by simpa using hhead
    simp only [close, htake]
    simp [candidates, hc]

theorem head?_candidates_name (c : Char) (s : List Char) :
    ((group 3 (.seq (.one isNameStart) (.many isNameChar))).candidates (c :: s)).head? =
      if isNameStart c then
        some ⟨[(3, c :: s.takeWhile isNameChar)], s.dropWhile isNameChar⟩
      else none := by
  rw [candidates, candidates_seq_one]
  cases hc : isNameStart c with
  | false => rfl
  | true =>
    have hle := (List.dropWhile_suffix isNameChar (l := s)).length_le
    simp only [if_true, candidates, List.map_map, List.head?_map, head?_rests]
    simp [Nat.succ_sub hle, Text.take_sub_dropWhile]

/-- The pattern prefers the placeholder that is read after a dollar sign. -/
theorem head?_candidates_placeholder (s : List Char) :
    (placeholder.candidates ('$' :: s)).head?.map (fun m => (m.name, m.rest)) = placeholder? s := by
  rw [placeholder, candidates_seq_one, if_pos (beq_self_eq_true _)]
  cases s with
  | nil => rfl
  | cons c s =>
    by_cases hc : c = '{'
    · subst hc
      rw [candidates_either, candidates_seq_one, if_pos (beq_self_eq_true _), candidates_braces,
        placeholder?]
      cases Text.splitFirst? '}' s with
      | none => rfl
      | some parts => rfl
    · have hbrace : (c == '{') = false := by simpa using hc
      have hspecial : (group 2 (.one isSpecialName)).candidates (c :: s) =
          if isSpecialName c then [⟨[(2, [c])], s⟩] else [] := by
        cases h : isSpecialName c <;> simp [candidates, h]
      rw [candidates_either, candidates_either, candidates_either, candidates_seq_one,
        candidates_one, hbrace, hspecial, placeholder?_of_ne hc]
      cases isSpecialName c with
      | true => rfl
      | false =>
        simp only [Bool.false_eq_true, if_false, List.nil_append, head?_candidates_name]
        cases isNameStart c <;> rfl

/-- A dollar sign in braces is text, and the braces are preferred to the brace alone. -/
example : placeholder.candidates "$\x7ba$\x7bb\x7dc".toList =
    [⟨[(1, "a$\x7bb".toList)], "c".toList⟩, ⟨[], "a$\x7bb\x7dc".toList⟩] := by decide

theorem candidates_placeholder_of_ne {c : Char} (hc : c ≠ '$') (s : List Char) :
    placeholder.candidates (c :: s) = [] := by
  rw [placeholder, candidates_seq_one, if_neg (by simpa using hc)]

section ReplaceAll

variable {pattern : Pattern} {value : Match → List Char} {c : Char} {s : List Char}

theorem replaceAll_of_some {m : Match} (h : (pattern.candidates (c :: s)).head? = some m)
    (reads : m.rest.length < (c :: s).length) :
    pattern.replaceAll value (c :: s) = value m ++ pattern.replaceAll value m.rest := by
  rw [replaceAll, h]
  exact if_pos reads

theorem replaceAll_of_none (h : (pattern.candidates (c :: s)).head? = none) :
    pattern.replaceAll value (c :: s) = c :: pattern.replaceAll value s := by
  rw [replaceAll, h]

end ReplaceAll

end Pattern

/-- Expansion is the replacement of every placeholder that the pattern finds. -/
theorem replaceAll_placeholder (value : List Char → List Char) (s : List Char) :
    Pattern.placeholder.replaceAll (fun m => valueOf value m.name) s = expand value s := by
  induction hn : s.length using Nat.strongRecOn generalizing s with
  | ind n ih =>
  cases s with
  | nil => rw [Pattern.replaceAll, expand_nil]
  | cons c s =>
    have hrest := ih s.length (hn ▸ Nat.lt_succ_self _) s rfl
    by_cases hc : c = '$'
    · subst hc
      have hhead := Pattern.head?_candidates_placeholder s
      cases hm : (Pattern.placeholder.candidates ('$' :: s)).head? with
      | none =>
        rw [hm] at hhead
        rw [Pattern.replaceAll_of_none hm, hrest, expand_dollar value hhead.symm]
      | some m =>
        rw [hm] at hhead
        have hless : m.rest.length < ('$' :: s).length :=
          Nat.lt_succ_of_lt (length_lt_of_placeholder? hhead.symm)
        rw [Pattern.replaceAll_of_some hm hless, expand_placeholder value hhead.symm,
          ih m.rest.length (hn ▸ hless) m.rest rfl]
    · have hnone := Pattern.candidates_placeholder_of_ne hc s
      rw [Pattern.replaceAll_of_none (by rw [hnone]; rfl), hrest, expand_of_ne value hc]

end TwinTrees.Script
