import Mathlib.Data.List.TakeWhile
import TwinTrees.Proofs.Script.Pattern

/-!
# Expansion as substitution

A text falls into pieces from left to right: placeholders, braces that are dropped, and single
characters that are kept. The pieces do not depend on the values of the names (`exists_divides`),
and the expanded text is the values of the pieces, one after the other. So a value is inserted as it
is, whatever dollar signs and braces it has, and only the names that occur in the text count.
-/

namespace TwinTrees.Script

/-- The text that a name stands for. -/
def valueIn (lookup : String → Option String) (name : String) : String :=
  (lookup name).getD ""

/-- A letter or an underscore, then letters, digits and underscores. -/
def IsIdentifier (name : String) : Prop :=
  ∃ c rest, name.toList = c :: rest ∧ isNameStart c = true ∧ ∀ d ∈ rest, isNameChar d = true

/-- After a dollar sign the text starts a placeholder. -/
def Opens (after : String) : Prop :=
  ∃ c ∈ after.toList.head?, c = '{' ∨ isSpecialName c = true ∨ isNameStart c = true

/-- The equations of a substitution, by what a text starts with. -/
structure Substitutes (lookup : String → Option String) (x : String → String) : Prop where
  empty : x "" = ""
  plain : ∀ c s, c ≠ '$' → x (String.singleton c ++ s) = String.singleton c ++ x s
  /-- A name that is as long as possible. -/
  name : ∀ n s, IsIdentifier n → (∀ c ∈ s.toList.head?, isNameChar c = false) →
    x ("$" ++ n ++ s) = valueIn lookup n ++ x s
  braces : ∀ t s, '}' ∉ t.toList → t ≠ "" →
    x ("$\x7b" ++ t ++ "\x7d" ++ s) = valueIn lookup t ++ x s
  emptyBraces : ∀ s, x ("$\x7b\x7d" ++ s) = x s
  unclosed : ∀ s, '}' ∉ s.toList → x ("$\x7b" ++ s) = x s
  special : ∀ p s, isSpecialName p = true →
    x ("$" ++ String.singleton p ++ s) = valueIn lookup (String.singleton p) ++ x s
  dollar : ∀ s, ¬ Opens s → x ("$" ++ s) = "$" ++ x s

/-! ## What follows a dollar sign -/

section Placeholder

variable {s t : List Char}

theorem placeholder?_braces (ht : '}' ∉ t) (s : List Char) :
    placeholder? ('{' :: (t ++ '}' :: s)) = some (t, s) := by
  have hkept : ∀ c ∈ t, (c != '}') = true := by
    intro c hc
    have hne : c ≠ '}' := fun h => ht (h ▸ hc)
    simpa using hne
  have hdrop : (t ++ '}' :: s).dropWhile (· != '}') = '}' :: s := by
    rw [List.dropWhile_append_of_pos hkept]
    rfl
  have htake : (t ++ '}' :: s).takeWhile (· != '}') = t := by
    rw [List.takeWhile_append_of_pos hkept]
    simp
  rw [placeholder?, Text.splitFirst?_eq, hdrop, htake]

theorem placeholder?_unclosed (hs : '}' ∉ s) : placeholder? ('{' :: s) = some ([], s) := by
  have hdrop : s.dropWhile (· != '}') = [] := by
    refine List.dropWhile_eq_nil_iff.2 fun c hc => ?_
    have hne : c ≠ '}' := fun h => hs (h ▸ hc)
    simpa using hne
  rw [placeholder?, Text.splitFirst?_eq, hdrop]

theorem placeholder?_special {p : Char} (hp : isSpecialName p = true) (s : List Char) :
    placeholder? (p :: s) = some ([p], s) := by
  have hbrace : p ≠ '{' := by
    rintro rfl
    exact absurd hp (by decide)
  rw [placeholder?_of_ne hbrace, if_pos hp]

theorem isSpecialName_of_isNameStart {c : Char} (hc : isNameStart c = true) :
    isSpecialName c = false := by
  refine Bool.eq_false_iff.2 fun hs => ?_
  simp only [isSpecialName, List.contains_cons, List.contains_nil, Bool.or_eq_true, beq_iff_eq,
    Bool.and_eq_true, decide_eq_true_eq, Bool.or_false] at hs
  rcases hs with (rfl | rfl | rfl | rfl | rfl | rfl | rfl) | ⟨-, hhigh⟩
  case inr =>
    -- A digit comes before all letters.
    have hdigit : c.toNat ≤ '9'.toNat := hhigh
    simp only [isNameStart, Bool.or_eq_true, Bool.and_eq_true, decide_eq_true_eq, beq_iff_eq] at hc
    rcases hc with (⟨hlow, -⟩ | ⟨hlow, -⟩) | rfl
    · exact absurd (Nat.le_trans hlow hdigit) (by decide)
    · exact absurd (Nat.le_trans hlow hdigit) (by decide)
    · exact absurd hdigit (by decide)
  all_goals exact absurd hc (by decide)

theorem placeholder?_name {c : Char} (hc : isNameStart c = true)
    (ht : ∀ d ∈ t, isNameChar d = true) (hs : ∀ d ∈ s.head?, isNameChar d = false) :
    placeholder? (c :: (t ++ s)) = some (c :: t, s) := by
  have hbrace : c ≠ '{' := by
    rintro rfl
    exact absurd hc (by decide)
  have hstop : s.takeWhile isNameChar = [] ∧ s.dropWhile isNameChar = s := by
    cases s with
    | nil => exact ⟨rfl, rfl⟩
    | cons d s => simp [hs d rfl]
  rw [placeholder?_of_ne hbrace, isSpecialName_of_isNameStart hc, if_pos hc,
    List.takeWhile_append_of_pos ht, List.dropWhile_append_of_pos ht, hstop.1, hstop.2]
  simp

theorem placeholder?_none
    (h : ∀ c ∈ s.head?, c ≠ '{' ∧ isSpecialName c = false ∧ isNameStart c = false) :
    placeholder? s = none := by
  cases s with
  | nil => rfl
  | cons c s =>
    obtain ⟨hbrace, hspecial, hstart⟩ := h c rfl
    rw [placeholder?_of_ne hbrace, hspecial, hstart]
    rfl

end Placeholder

/-! ## The equations -/

section Equations

variable (lookup : String → Option String)

/-- The value of a name, for texts as lists. -/
def charsOf (name : List Char) : List Char := (valueIn lookup (String.ofList name)).toList

theorem expandString_dollar_append (s : String) : expandString lookup ("$" ++ s) =
    String.ofList (expand (charsOf lookup) ('$' :: s.toList)) := by
  unfold expandString
  rw [String.toList_append]
  rfl

theorem expandString_of_placeholder {s name after : String} (hname : name ≠ "")
    (h : placeholder? s.toList = some (name.toList, after.toList)) :
    expandString lookup ("$" ++ s) = valueIn lookup name ++ expandString lookup after := by
  have hvalue : valueOf (charsOf lookup) name.toList = (valueIn lookup name).toList := by
    have hne : name.toList.isEmpty = false := by simpa using hname
    rw [valueOf, hne, charsOf, String.ofList_toList]
    rfl
  rw [expandString_dollar_append, expand_placeholder _ h, hvalue, String.ofList_append,
    String.ofList_toList]
  rfl

theorem expandString_of_dropped {s after : String}
    (h : placeholder? s.toList = some ([], after.toList)) :
    expandString lookup ("$" ++ s) = expandString lookup after := by
  rw [expandString_dollar_append, expand_placeholder _ h]
  rfl

/-- Expansion is a substitution. -/
theorem substitutes_expandString : Substitutes lookup (expandString lookup) where
  empty := by
    unfold expandString
    rw [String.toList_empty, expand_nil]
  plain c s hc := by
    unfold expandString
    rw [String.toList_append, String.toList_singleton, List.singleton_append, expand_of_ne _ hc]
    simp
  name n s hn hs := by
    obtain ⟨c, rest, hlist, hc, hrest⟩ := hn
    rw [String.append_assoc]
    refine expandString_of_placeholder lookup ?_ ?_
    · rintro rfl
      cases hlist
    · rw [String.toList_append, hlist]
      exact placeholder?_name hc hrest hs
  braces t s ht hne := by
    rw [String.append_assoc, String.append_assoc]
    refine expandString_of_placeholder lookup (s := "\x7b" ++ (t ++ ("\x7d" ++ s))) hne ?_
    simp only [String.toList_append]
    exact placeholder?_braces ht s.toList
  emptyBraces s := by
    refine expandString_of_dropped lookup (s := "\x7b\x7d" ++ s) ?_
    rw [String.toList_append]
    exact placeholder?_braces List.not_mem_nil s.toList
  unclosed s hs := by
    refine expandString_of_dropped lookup (s := "\x7b" ++ s) ?_
    rw [String.toList_append]
    exact placeholder?_unclosed hs
  special p s hp := by
    rw [String.append_assoc]
    refine expandString_of_placeholder lookup (by simp) ?_
    rw [String.toList_append, String.toList_singleton]
    exact placeholder?_special hp s.toList
  dollar s hs := by
    have hnone : placeholder? s.toList = none := by
      refine placeholder?_none fun c hc => ?_
      simpa [not_or] using fun h => hs ⟨c, hc, h⟩
    rw [expandString_dollar_append, expand_dollar _ hnone, ← List.singleton_append,
      String.ofList_append]
    rfl

end Equations

/-! ## The pieces of a text -/

/-- A piece of a text. -/
inductive Piece
  | kept (c : Char)
  /-- A name after a dollar sign. -/
  | named (name : String)
  | braced (text : String)
  /-- A brace after a dollar sign that is not closed. -/
  | unclosed
  deriving DecidableEq, Repr

namespace Piece

/-- The piece as it stands in the text. -/
def written : Piece → String
  | .kept c => String.singleton c
  | .named name => "$" ++ name
  | .braced text => "$\x7b" ++ text ++ "\x7d"
  | .unclosed => "$\x7b"

/-- What stands for the piece in the expanded text. -/
def value (lookup : String → Option String) : Piece → String
  | .kept c => String.singleton c
  | .named name => valueIn lookup name
  | .braced text => if text = "" then "" else valueIn lookup text
  | .unclosed => ""

/-- The name whose value the piece has. -/
def name? : Piece → Option String
  | .named name => some name
  | .braced text => if text = "" then none else some text
  | .kept _ | .unclosed => none

theorem value_congr {lookup lookup' : String → Option String} {p : Piece}
    (same : ∀ name ∈ p.name?, lookup name = lookup' name) : p.value lookup = p.value lookup' := by
  cases p with
  | kept | unclosed => rfl
  | named name => exact congrArg (·.getD "") (same name rfl)
  | braced text =>
    by_cases htext : text = ""
    · simp only [value, if_pos htext]
    · have htext' := same text (by simp [name?, htext])
      simp only [value, valueIn, htext']

/-- The piece is the first one where `after` follows. -/
def Leads (after : String) : Piece → Prop
  | .kept c => c = '$' → ¬ Opens after
  | .named name => (∃ p, isSpecialName p = true ∧ name = String.singleton p) ∨
      IsIdentifier name ∧ ∀ c ∈ after.toList.head?, isNameChar c = false
  | .braced text => '}' ∉ text.toList
  | .unclosed => '}' ∉ after.toList

end Piece

/-- The text falls into the pieces. -/
inductive Divides : String → List Piece → Prop
  | nil : Divides "" []
  | cons {p : Piece} {after : String} {pieces : List Piece} (leads : p.Leads after)
    (divides : Divides after pieces) : Divides (p.written ++ after) (p :: pieces)

theorem Divides.eq_join_written {text : String} {pieces : List Piece}
    (divides : Divides text pieces) : text = String.join (pieces.map Piece.written) := by
  induction divides with
  | nil => rfl
  | cons _ _ ih => rw [List.map_cons, String.join_cons, ← ih]

theorem Substitutes.piece {lookup : String → Option String} {x : String → String}
    (h : Substitutes lookup x) {p : Piece} {after : String} (leads : p.Leads after) :
    x (p.written ++ after) = p.value lookup ++ x after := by
  cases p with
  | kept c =>
    by_cases hc : c = '$'
    · subst hc
      exact h.dollar after (leads rfl)
    · exact h.plain c after hc
  | named name =>
    rcases leads with ⟨p, hp, rfl⟩ | ⟨hname, hafter⟩
    · exact h.special p after hp
    · exact h.name name after hname hafter
  | braced text =>
    by_cases htext : text = ""
    · subst htext
      exact (h.emptyBraces after).trans String.empty_append.symm
    · rw [Piece.value, if_neg htext]
      exact h.braces text after leads htext
  | unclosed => exact (h.unclosed after leads).trans String.empty_append.symm

/-- What satisfies the equations puts the values of the pieces one after the other. -/
theorem Substitutes.eq_join {lookup : String → Option String} {x : String → String}
    (h : Substitutes lookup x) {text : String} {pieces : List Piece}
    (divides : Divides text pieces) : x text = String.join (pieces.map (Piece.value lookup)) := by
  induction divides with
  | nil => exact h.empty
  | cons leads _ ih => rw [h.piece leads, ih, List.map_cons, String.join_cons]

theorem Piece.length_written_pos (p : Piece) : 0 < p.written.length := by
  rw [← String.length_toList]
  cases p <;> simp [Piece.written]

/-- After a dollar sign that opens a placeholder there is a piece. -/
theorem exists_piece_of_opens {rest : List Char} (h : Opens (String.ofList rest)) :
    ∃ (p : Piece) (after : String), p.Leads after ∧
      '$' :: rest = p.written.toList ++ after.toList := by
  obtain ⟨c, hhead, hc⟩ := h
  rw [String.toList_ofList] at hhead
  obtain ⟨s, rfl⟩ := List.head?_eq_some_iff.1 hhead
  rcases hc with rfl | hspecial | hstart
  · by_cases hclosed : '}' ∈ s
    · obtain ⟨t, after, rfl, ht⟩ := List.eq_append_cons_of_mem hclosed
      refine ⟨.braced (String.ofList t), String.ofList after, ?_, by simp [Piece.written]⟩
      rw [Piece.Leads, String.toList_ofList]
      exact ht
    · refine ⟨.unclosed, String.ofList s, ?_, by simp [Piece.written]⟩
      rw [Piece.Leads, String.toList_ofList]
      exact hclosed
  · exact ⟨.named (String.singleton c), String.ofList s, .inl ⟨c, hspecial, rfl⟩,
      by simp [Piece.written]⟩
  · refine ⟨.named (String.ofList (c :: s.takeWhile isNameChar)),
      String.ofList (s.dropWhile isNameChar), .inr ⟨?_, ?_⟩, ?_⟩
    · exact ⟨c, _, String.toList_ofList, hstart, fun d hd => List.mem_takeWhile_imp hd⟩
    · intro d hd
      rw [String.toList_ofList] at hd
      have hstop := List.head?_dropWhile_not isNameChar s
      rw [hd] at hstop
      simpa using hstop
    · simp [Piece.written]

theorem exists_piece {text : String} (h : text ≠ "") : ∃ (p : Piece) (after : String),
    p.Leads after ∧ text = p.written ++ after := by
  cases hlist : text.toList with
  | nil => exact absurd (String.toList_eq_nil_iff.1 hlist) h
  | cons c rest =>
    by_cases hopens : c = '$' ∧ Opens (String.ofList rest)
    · obtain ⟨rfl, hopens⟩ := hopens
      obtain ⟨p, after, leads, hrest⟩ := exists_piece_of_opens hopens
      exact ⟨p, after, leads, String.ext (by rw [hlist, hrest, String.toList_append])⟩
    · refine ⟨.kept c, String.ofList rest, fun hc ho => hopens ⟨hc, ho⟩, String.ext ?_⟩
      rw [hlist]
      simp [Piece.written]

/-- Every text falls into pieces, which no values are needed for. -/
theorem exists_divides (text : String) : ∃ pieces, Divides text pieces := by
  induction hn : text.length using Nat.strongRecOn generalizing text with
  | ind n ih =>
  by_cases h : text = ""
  · exact ⟨[], h ▸ .nil⟩
  · obtain ⟨p, after, leads, rfl⟩ := exists_piece h
    have hless : after.length < n := by
      have hpos := p.length_written_pos
      rw [String.length_append] at hn
      omega
    obtain ⟨pieces, hpieces⟩ := ih _ hless after rfl
    exact ⟨p :: pieces, .cons leads hpieces⟩

/-- The text with what the pattern of placeholders matches replaced. -/
def replaceString (lookup : String → Option String) (text : String) : String :=
  String.ofList (Pattern.placeholder.replaceAll
    (fun m => valueOf (charsOf lookup) m.name) text.toList)

/-- Expansion is substitution in one pass. It replaces what the pattern of placeholders matches; it
satisfies the equations of a substitution and is the only function that does; and it cuts every text
into pieces, the same for all values, and puts the values of the pieces one after the other, so that
it depends on the values of the names of the pieces only. -/
theorem expandString_by_pieces (lookup : String → Option String) :
    expandString lookup = replaceString lookup ∧
    (∀ x, Substitutes lookup x ↔ x = expandString lookup) ∧
    ∀ text, ∃ pieces, Divides text pieces ∧ text = String.join (pieces.map Piece.written) ∧
      ∀ lookup', expandString lookup' text = String.join (pieces.map (Piece.value lookup')) ∧
        ((∀ p ∈ pieces, ∀ name ∈ p.name?, lookup' name = lookup name) →
          expandString lookup' text = expandString lookup text) := by
  refine ⟨?_, fun x => ⟨fun h => ?_, fun h => ?_⟩, fun text => ?_⟩
  · funext text
    rw [replaceString, replaceAll_placeholder]
    rfl
  · funext text
    obtain ⟨pieces, hpieces⟩ := exists_divides text
    rw [h.eq_join hpieces, (substitutes_expandString lookup).eq_join hpieces]
  · exact h ▸ substitutes_expandString lookup
  · obtain ⟨pieces, hpieces⟩ := exists_divides text
    have hexpand : ∀ lookup', expandString lookup' text =
        String.join (pieces.map (Piece.value lookup')) :=
      fun lookup' => (substitutes_expandString lookup').eq_join hpieces
    refine ⟨pieces, hpieces, hpieces.eq_join_written, fun lookup' => ⟨hexpand lookup', ?_⟩⟩
    intro same
    rw [hexpand, hexpand]
    exact congrArg String.join (List.map_congr_left fun p hp => Piece.value_congr (same p hp))

end TwinTrees.Script
