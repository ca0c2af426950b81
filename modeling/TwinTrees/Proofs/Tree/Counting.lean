import Mathlib.Algebra.Group.Nat.Defs
import Mathlib.Data.List.GetD
import TwinTrees.Proofs.Tree.Mutating

/-!
# How many bytes a mutation writes

The number of bytes that a mutation writes is drawn from a range between two shares of the size of
the file. A draw reads words one after the other until one counts, so of any generator it sees the
words up to that one and no more (`Draw`). A source that starts with these words gives their number and is
left right after them (`Source.below_of_draw`). Every source starts with such words, because it is
fair (`Source.exists_draw`), and any such words are those of a source (`Source.exists_gives`), also
if the generator that they come from never ends another draw.

The count is exact (`mutationCount_exact`): it is refused if a percentage or a product is too large,
and only then; it is in the range if there is a number in it, and else it is the lower share, for
which no word is read. It is never more than the size, so where a byte is to be written there is a
place to draw.
-/

namespace TwinTrees

/-! ## Draws by the words that they read -/

/-- The words that a draw below `n` reads of a generator, up to the first that counts, and the
number that is drawn. -/
inductive Draw (n : Nat) : List UInt64 → Nat → Prop
  | counted {word : UInt64} (h : counts n word = true) :
    Draw n [word] (word.toNat * n / wordLimit)
  | passed {word : UInt64} {words : List UInt64} {value : Nat} (h : counts n word = false)
    (rest : Draw n words value) : Draw n (word :: words) value

/-- The number that is drawn is below the bound. -/
theorem Draw.value_lt {n : Nat} (hn : 0 < n) {words : List UInt64} {value : Nat}
    (h : Draw n words value) : value < n := by
  induction h with
  | @counted word h =>
    rw [Nat.div_lt_iff_lt_mul (by decide), Nat.mul_comm n]
    exact Nat.mul_lt_mul_of_pos_right word.toNat_lt hn
  | passed h rest ih => exact ih

/-- The words that are read for a number from `low` up to but without `high`, and the number. Where
there is no such number it is `low`, and no word is read. -/
inductive RangeDraw (low high : Nat) : List UInt64 → Nat → Prop
  | drawn {words : List UInt64} {value : Nat} (h : low < high)
    (draw : Draw (high - low) words value) : RangeDraw low high words (low + value)
  | empty (h : high ≤ low) : RangeDraw low high [] low

namespace Source

variable {s : Source} {n : Nat}

/-- These are the next words of the source. -/
def Gives : Source → List UInt64 → Prop
  | _, [] => True
  | s, word :: words => s.next.1 = word ∧ s.next.2.Gives words

theorem gives_of_getElem {words : List UInt64}
    (h : ∀ i (hi : i < words.length), s.word (s.position + i) = words[i]) : s.Gives words := by
  induction words generalizing s with
  | nil => trivial
  | cons word words ih =>
    refine ⟨h 0 (Nat.succ_pos _), ih fun i hi => ?_⟩
    have hplace : s.position + 1 + i = s.position + (i + 1) := by omega
    exact (congrArg s.word hplace).trans (h (i + 1) (Nat.succ_lt_succ hi))

/-- There is a source with any words at its start: zeros follow, which count in every draw. -/
theorem exists_gives (words : List UInt64) : ∃ s : Source, s.Gives words := by
  let s : Source := {
    word := fun k => words.getD k 0
    position := 0
    fair := fun n k => ⟨max k words.length, Nat.le_max_left .., by
      rw [List.getD_eq_default _ _ (Nat.le_max_right ..)]
      simp [counts]⟩ }
  refine ⟨s, gives_of_getElem fun i hi => ?_⟩
  simp [s, hi]

theorem accepted_of_counts (h : counts n s.next.1 = true) : s.accepted n = s.position := by
  rw [accepted, firstFrom_eq]
  exact if_pos h

theorem accepted_of_passed (h : counts n s.next.1 = false) :
    s.accepted n = s.next.2.accepted n := by
  rw [accepted, firstFrom_eq]
  exact if_neg (Bool.eq_false_iff.1 h)

/-- Every source starts with words that a draw reads, because it is fair. -/
theorem exists_draw (s : Source) (n : Nat) : ∃ words value, s.Gives words ∧ Draw n words value := by
  obtain ⟨m, hm, hcounts⟩ := s.fair n s.position
  -- The draw is over at the word at `m`, if it is not over before.
  obtain ⟨d, rfl⟩ := Nat.exists_eq_add_of_le hm
  clear hm
  induction d generalizing s with
  | zero => exact ⟨[s.next.1], _, ⟨rfl, trivial⟩, .counted hcounts⟩
  | succ d ih =>
    cases hnext : counts n s.next.1 with
    | true => exact ⟨[s.next.1], _, ⟨rfl, trivial⟩, .counted hnext⟩
    | false =>
      obtain ⟨words, value, hgives, hdraw⟩ := ih s.next.2 (by
        rw [Nat.add_comm d, ← Nat.add_assoc] at hcounts
        exact hcounts)
      exact ⟨s.next.1 :: words, value, ⟨rfl, hgives⟩, .passed hnext hdraw⟩

/-- A source that starts with the words of a draw gives its number, and is left right after them. -/
theorem below_of_draw {words : List UInt64} {value : Nat} (h : Draw n words value)
    (hs : s.Gives words) (hn : 0 < n) :
    (s.below n hn).1.val = value ∧ (s.below n hn).2 = s.skip words.length := by
  induction h generalizing s with
  | counted h =>
    obtain ⟨rfl, -⟩ := hs
    simp only [below, accepted_of_counts h]
    exact ⟨rfl, rfl⟩
  | @passed word words value h rest ih =>
    obtain ⟨rfl, hrest⟩ := hs
    have hbelow := ih hrest
    simp only [below, ← accepted_of_passed h] at hbelow ⊢
    refine ⟨hbelow.1, hbelow.2.trans ?_⟩
    simp only [skip, next, List.length_cons, Source.mk.injEq, true_and]
    omega

end Source

/-! ## Draws from a range -/

/-- The number is in the range if there is one in it; else it is the bound below and nothing is
read. -/
theorem RangeDraw.bounds {low high n : Nat} {words : List UInt64} (h : RangeDraw low high words n) :
    (low < high → low ≤ n ∧ n < high) ∧ (high ≤ low → n = low ∧ words = []) := by
  cases h with
  | drawn hlt draw =>
    have hvalue := draw.value_lt (Nat.sub_pos_of_lt hlt)
    exact ⟨fun _ => by omega, fun hle => absurd hlt (Nat.not_lt_of_le hle)⟩
  | empty hle => exact ⟨fun hlt => absurd hlt (Nat.not_lt_of_le hle), fun _ => ⟨rfl, rfl⟩⟩

theorem Source.exists_rangeDraw (s : Source) (low high : Nat) :
    ∃ words n, s.Gives words ∧ RangeDraw low high words n := by
  by_cases hlt : low < high
  · obtain ⟨words, value, hgives, hdraw⟩ := s.exists_draw (high - low)
    exact ⟨words, low + value, hgives, .drawn hlt hdraw⟩
  · exact ⟨[], low, trivial, .empty (Nat.le_of_not_lt hlt)⟩

theorem Source.between_of_draw {s : Source} {low high value : Nat} {words : List UInt64}
    (h : Draw (high - low) words value) (hs : s.Gives words) (hlt : low < high) :
    (s.between low high hlt).1.val = low + value ∧
      (s.between low high hlt).2 = s.skip words.length := by
  obtain ⟨hvalue, hsource⟩ := Source.below_of_draw h hs (Nat.sub_pos_of_lt hlt)
  exact ⟨congrArg (low + ·) hvalue, hsource⟩

/-! ## The count -/

namespace Tree

variable {size least most n : Nat} {words : List UInt64} {s s' : Source}

theorem refused_iff : Refused size least most ↔
    100 < least ∨ 100 < most ∨ 2 ^ 64 ≤ size * Nat.max least most := by
  have hle : ∀ a b, wordLimit ≤ Nat.max a b ↔ wordLimit ≤ a ∨ wordLimit ≤ b := by
    intro a b
    have hcases : Nat.max a b = if a ≤ b then b else a := Nat.max_def
    rw [hcases]
    split <;> omega
  have hmax : size * Nat.max least most = Nat.max (size * least) (size * most) :=
    (Nat.mul_max_mul_left ..).symm
  rw [hmax]
  exact or_congr_right (or_congr_right (hle _ _).symm)

/-- What is drawn between two shares of a size is no more than the size. -/
theorem le_size_of_rangeDraw (accepted : ¬ Refused size least most)
    (h : RangeDraw (size * least / 100) (size * most / 100) words n) : n ≤ size := by
  obtain ⟨hleast, hmost, hlow, hhigh⟩ := bounds_of_not_refused accepted
  have hlow := share_le (share_eq_ok hlow) hleast
  have hhigh := share_le (share_eq_ok hhigh) hmost
  have hbounds := h.bounds
  omega

/-- The count is what the words say with which the source starts, and the source is left right after
them. -/
theorem mutationCount_of_rangeDraw (accepted : ¬ Refused size least most)
    (h : RangeDraw (size * least / 100) (size * most / 100) words n) (hs : s.Gives words) :
    mutationCount size least most s =
      .ok (⟨n, le_size_of_rangeDraw accepted h⟩, s.skip words.length) := by
  obtain ⟨hleast, hmost, hlow, hhigh⟩ := bounds_of_not_refused accepted
  unfold mutationCount
  rw [dif_pos ⟨hleast, hmost⟩]
  split
  · next hfault => rw [share_eq_ok hlow] at hfault; cases hfault
  · next low hlow' =>
    cases (share_eq_ok hlow).symm.trans hlow'
    split
    · next hfault => rw [share_eq_ok hhigh] at hfault; cases hfault
    · next high hhigh' =>
      cases (share_eq_ok hhigh).symm.trans hhigh'
      cases h with
      | drawn hlt draw =>
        obtain ⟨hvalue, hsource⟩ := Source.between_of_draw draw hs hlt
        rw [dif_pos hlt]
        exact congrArg Except.ok (Prod.ext (Subtype.ext hvalue) hsource)
      | empty hle =>
        rw [dif_neg (Nat.not_lt_of_le hle)]
        rfl

/-- Places are drawn if there is one to draw wherever one is asked for. -/
theorem exists_drawPlaces {k : Nat} (h : 0 < k → 0 < size) (s : Source) :
    ∃ places s', drawPlaces? size k s = some (places, s') := by
  induction k generalizing s with
  | zero => exact ⟨[], s, rfl⟩
  | succ k ih =>
    have hsize := h (Nat.succ_pos k)
    obtain ⟨places, s', hrest⟩ := ih (fun _ => hsize) (s.below size hsize).2
    exact ⟨_, _, by rw [drawPlaces?, dif_pos hsize, hrest]; rfl⟩

/-- The number of bytes to write to a file of this size, with the source before and after the count:
the bounds of the number, and what is read of the source. -/
structure Counted (size least most : Nat) (s : Source) (n : Nat) (s' : Source) : Prop where
  inRange : size * least / 100 < size * most / 100 →
    size * least / 100 ≤ n ∧ n < size * most / 100
  noRange : size * most / 100 ≤ size * least / 100 → n = size * least / 100 ∧ s' = s
  le_size : n ≤ size
  ofEmpty : size = 0 → n = 0
  /-- Whatever comes next of the source, there is a place in the file for each of the bytes. -/
  placed : ∀ t : Source, ∃ places t', drawPlaces? size n t = some (places, t')
  reads : ∃ words, s.Gives words ∧ s' = s.skip words.length ∧
    RangeDraw (size * least / 100) (size * most / 100) words n

theorem counted_of_rangeDraw (accepted : ¬ Refused size least most)
    (h : RangeDraw (size * least / 100) (size * most / 100) words n) (hs : s.Gives words) :
    Counted size least most s n (s.skip words.length) := by
  have hsize := le_size_of_rangeDraw accepted h
  refine ⟨h.bounds.1, fun hle => ?_, hsize, fun hzero => ?_,
    exists_drawPlaces fun hn => hn.trans_le hsize, words, hs, rfl, h⟩
  · obtain ⟨hn, hwords⟩ := h.bounds.2 hle
    exact ⟨hn, by rw [hwords]; rfl⟩
  · exact Nat.le_zero.1 (hzero ▸ hsize)

/-- The count is refused if and only if a percentage is above 100 or the size times the larger
percentage is no 64-bit number. Else it is a number between the two shares, or the lower share if
there is none between them, and then nothing is read; it is at most the size. The words up to the end
of the draw decide it, whatever a generator gives after them. The places of the bytes are then drawn
from the whole file, and never from nothing. -/
theorem mutationCount_exact (size least most : Nat) :
    (∀ s fault, mutationCount size least most s = .error fault ↔
      (100 < least ∨ 100 < most ∨ 2 ^ 64 ≤ size * Nat.max least most) ∧
        fault = refusal size least most) ∧
    (¬ (100 < least ∨ 100 < most ∨ 2 ^ 64 ≤ size * Nat.max least most) →
      (∀ s, ∃ n s', mutationCount size least most s = .ok (n, s') ∧
        Counted size least most s n s') ∧
      ∀ words n, RangeDraw (size * least / 100) (size * most / 100) words n →
        (∃ s : Source, s.Gives words) ∧ ∃ hn : n ≤ size, ∀ s : Source, s.Gives words →
          mutationCount size least most s = .ok (⟨n, hn⟩, s.skip words.length) ∧
          Counted size least most s n (s.skip words.length)) ∧
    ∀ (bytes : Bytes) s n s', mutationCount bytes.size least most s = .ok (n, s') →
      ∃ places contents s'', drawPlaces? bytes.size n (s'.bytes n).2 = some (places, s'') ∧
        Mutates bytes ⟨bytes.size, n, (mutateBytes bytes n s').1.2⟩ (s'.bytes n).1 places contents
          (mutateBytes bytes n s').1.1 := by
  refine ⟨fun s fault => ?_, fun accepted => ?_, fun bytes s n s' _ =>
    mutateBytes_mutates bytes n s'⟩
  · rw [← refused_iff]
    constructor
    · intro hfault
      by_cases refused : Refused size least most
      · rw [mutationCount_of_refused refused] at hfault
        exact ⟨refused, (Except.error.inj hfault).symm⟩
      · obtain ⟨n, s', hcount⟩ := exists_mutationCount_of_not_refused (s := s) refused
        rw [hcount] at hfault
        cases hfault
    · rintro ⟨refused, rfl⟩
      exact mutationCount_of_refused refused
  · rw [← refused_iff] at accepted
    refine ⟨fun s => ?_, fun words n h => ⟨Source.exists_gives words,
      le_size_of_rangeDraw accepted h, fun s hs =>
        ⟨mutationCount_of_rangeDraw accepted h hs, counted_of_rangeDraw accepted h hs⟩⟩⟩
    obtain ⟨words, n, hs, h⟩ := s.exists_rangeDraw (size * least / 100) (size * most / 100)
    exact ⟨_, _, mutationCount_of_rangeDraw accepted h hs, counted_of_rangeDraw accepted h hs⟩

/-- A word that is passed over and one that counts, for a number from 100 up to but without 200; a
file that is too large by one byte; and as many bytes as there are, for which no word is read. -/
theorem mutationCount_exact_after_passed :
    let words : List UInt64 := [0xFFFFFFFFFFFFFFFF, 0x8000000000000000]
    ¬ (100 < 10 ∨ 100 < 20 ∨ 2 ^ 64 ≤ 1000 * Nat.max 10 20) ∧
      RangeDraw (1000 * 10 / 100) (1000 * 20 / 100) words 150 ∧
      ∃ s : Source, s.Gives words ∧
        (∃ hn : 150 ≤ 1000, mutationCount 1000 10 20 s = .ok (⟨150, hn⟩, s.skip 2)) ∧
        Counted 1000 10 20 s 150 (s.skip 2) ∧
        mutationCount 184467440737095517 0 100 s = .error (.fileTooLarge 184467440737095517) ∧
        ∃ n s', mutationCount 3 100 100 s = .ok (n, s') ∧ n.val = 3 ∧ s' = s ∧
          ∃ places s'', drawPlaces? 3 n (s'.bytes n).2 = some (places, s'') ∧
            places.length = 3 := by
  intro words
  have accepted : ¬ (100 < 10 ∨ 100 < 20 ∨ 2 ^ 64 ≤ 1000 * Nat.max 10 20) := by decide
  have hdraw : Draw 100 words 50 := .passed rfl (.counted rfl)
  have hrange : RangeDraw (1000 * 10 / 100) (1000 * 20 / 100) words 150 :=
    RangeDraw.drawn (show 100 < 200 by decide) hdraw
  obtain ⟨-, hwords⟩ := (mutationCount_exact 1000 10 20).2.1 accepted
  obtain ⟨⟨s, hs⟩, hn, hgiven⟩ := hwords words 150 hrange
  obtain ⟨hcount, hcounted⟩ := hgiven s hs
  obtain ⟨k, t, hk, hthree⟩ := ((mutationCount_exact 3 100 100).2.1 (by decide)).1 s
  obtain ⟨hvalue, ht⟩ := hthree.noRange (by decide)
  obtain ⟨places, contents, s'', hplaces, hmutates⟩ :=
    (mutationCount_exact 3 100 100).2.2 #[1, 2, 3] s k t hk
  exact ⟨accepted, hrange, s, hs, ⟨hn, hcount⟩, hcounted,
    ((mutationCount_exact 184467440737095517 0 100).1 s _).2 ⟨by decide, rfl⟩,
    k, t, hk, hvalue, ht, places, s'', hplaces, hmutates.length_places.trans hvalue⟩

end Tree

end TwinTrees
