import Mathlib.Data.List.TakeWhile
import Mathlib.Data.String.Basic
import TwinTrees.Text.Blank

/-!
# White space around texts, and their bytes

What is cut off a text at its ends is white space, or whatever else is cut, and nothing is cut off a
text that neither begins nor ends so. The number of bytes of a text is that of its UTF-8 form.
-/

namespace TwinTrees.Text

variable {p : Char → Bool} {s : List Char}

/-! ## Ends that are dropped -/

theorem dropEndWhile_append {s ending : List Char} (h : ∀ c ∈ ending, p c = true) :
    dropEndWhile p (s ++ ending) = dropEndWhile p s := by
  unfold dropEndWhile
  rw [List.reverse_append, List.dropWhile_append_of_pos fun c hc => h c (List.mem_reverse.1 hc)]

/-- A text is what is left of it and the end that is dropped. -/
theorem exists_dropEndWhile_append (p : Char → Bool) (s : List Char) :
    ∃ ending, s = dropEndWhile p s ++ ending ∧ ∀ c ∈ ending, p c = true := by
  refine ⟨(s.reverse.takeWhile p).reverse, ?_, fun c hc => ?_⟩
  · rw [dropEndWhile, ← List.reverse_append, List.takeWhile_append_dropWhile, List.reverse_reverse]
  · exact List.mem_takeWhile_imp (List.mem_reverse.1 hc)

theorem getLast?_dropEndWhile {p : Char → Bool} {s : List Char} :
    ∀ c ∈ (dropEndWhile p s).getLast?, p c = false := by
  intro c hc
  have h := List.head?_dropWhile_not p s.reverse
  rw [dropEndWhile, List.getLast?_reverse] at hc
  rw [hc] at h
  simpa using h

theorem dropEndWhile_eq_self {p : Char → Bool} {s : List Char}
    (h : ∀ c ∈ s.getLast?, p c = false) : dropEndWhile p s = s := by
  unfold dropEndWhile
  cases hs : s.reverse with
  | nil => rw [List.reverse_eq_nil_iff.1 hs]; rfl
  | cons c rest =>
    have hlast : s.getLast? = some c := by rw [← List.head?_reverse, hs]; rfl
    rw [List.dropWhile_cons, h c hlast]
    simpa using congrArg List.reverse hs.symm

/-! ## White space -/

theorem trim_append {s lead trail : List Char} (hlead : ∀ c ∈ lead, isBlank c = true)
    (htrail : ∀ c ∈ trail, isBlank c = true) : trim (lead ++ (s ++ trail)) = trim s := by
  unfold trim
  rw [List.dropWhile_append_of_pos hlead, List.dropWhile_append]
  split
  · next hs =>
    rw [List.isEmpty_iff] at hs
    rw [hs, List.dropWhile_eq_nil_iff.2 htrail]
  · exact dropEndWhile_append htrail

/-- A text is what is left of it when it is trimmed, with white space around it. -/
theorem exists_trim (s : List Char) :
    ∃ lead trail, (∀ c ∈ lead, isBlank c = true) ∧ (∀ c ∈ trail, isBlank c = true) ∧
      s = lead ++ (trim s ++ trail) := by
  obtain ⟨trail, htrail, hblank⟩ := exists_dropEndWhile_append isBlank (s.dropWhile isBlank)
  refine ⟨s.takeWhile isBlank, trail, fun c hc => List.mem_takeWhile_imp hc, hblank, ?_⟩
  rw [trim, ← htrail, List.takeWhile_append_dropWhile]

/-! ## Cutting at a character -/

section Cutting

variable {sep : Char} {s before after : List Char}

theorem splitFirst?_append (h : sep ∉ before) (after : List Char) :
    splitFirst? sep (before ++ sep :: after) = some (before, after) := by
  induction before with
  | nil => simp [splitFirst?]
  | cons c before ih =>
    obtain ⟨hc, hbefore⟩ := List.ne_and_not_mem_of_not_mem_cons h
    rw [List.cons_append, splitFirst?, if_neg fun heq => hc heq.symm, ih hbefore]
    rfl

theorem not_mem_of_splitFirst? (h : splitFirst? sep s = some (before, after)) : sep ∉ before := by
  induction s generalizing before with
  | nil => cases h
  | cons c s ih =>
    rw [splitFirst?] at h
    split at h
    · cases h
      exact List.not_mem_nil
    · next hc =>
      obtain ⟨⟨before', after'⟩, hsplit, heq⟩ := Option.map_eq_some_iff.1 h
      cases heq
      exact List.not_mem_cons_of_ne_of_not_mem (fun heq => hc heq.symm) (ih hsplit)

end Cutting

/-! ## Bytes -/

theorem byteLength_pos (h : s ≠ []) : 0 < byteLength s := by
  obtain ⟨c, s, rfl⟩ := List.exists_cons_of_ne_nil h
  rw [byteLength_cons]
  exact Nat.add_pos_left c.utf8Size_pos _

theorem byteLength_eq_utf8Len (s : List Char) : byteLength s = String.utf8Len s := by
  induction s with
  | nil => rfl
  | cons c s ih => rw [byteLength_cons, String.utf8Len_cons, ih, Nat.add_comm]

end TwinTrees.Text
