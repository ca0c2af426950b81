/-!
# White space and the cutting of text

The characters with the Unicode property White_Space, trimming them off both ends of a text,
splitting a text at them, and the few other ways in which a text is cut: at the first occurrence
of a character, and at the end. Lengths in bytes are lengths of the UTF-8 form.
-/

namespace TwinTrees.Text

/-- The Unicode property White_Space. -/
def isBlank (c : Char) : Bool :=
  let n := c.toNat
  (9 ≤ n && n ≤ 13) || n == 0x20 || n == 0x85 || n == 0xA0 || n == 0x1680 ||
    (0x2000 ≤ n && n ≤ 0x200A) || n == 0x2028 || n == 0x2029 || n == 0x202F || n == 0x205F ||
    n == 0x3000

/-- The text without its longest end of characters that satisfy `p`. -/
def dropEndWhile (p : Char → Bool) (s : List Char) : List Char :=
  (s.reverse.dropWhile p).reverse

/-- The text without white space at its start and at its end. -/
def trim (s : List Char) : List Char :=
  dropEndWhile isBlank (s.dropWhile isBlank)

/-- The maximal runs of characters that are not white space, in order. -/
def blankSeparated (s : List Char) : List (List Char) :=
  let (word, words) := s.foldr
    (fun c (word, words) =>
      if isBlank c then ([], if word.isEmpty then words else word :: words) else (c :: word, words))
    ([], [])
  if word.isEmpty then words else word :: words

/-- What stands before and after the first occurrence of `sep`. -/
def splitFirst? (sep : Char) : List Char → Option (List Char × List Char)
  | [] => none
  | c :: rest =>
    if c = sep then some ([], rest)
    else (splitFirst? sep rest).map fun (before, after) => (c :: before, after)

/-- The pieces between the occurrences of `sep`: one more than there are occurrences. -/
def splitAll (sep : Char) : List Char → List (List Char)
  | [] => [[]]
  | c :: rest =>
    if c = sep then [] :: splitAll sep rest
    else
      match splitAll sep rest with
      | [] => [[c]]
      | piece :: pieces => (c :: piece) :: pieces

/-- The number of bytes of the UTF-8 form. -/
def byteLength : List Char → Nat
  | [] => 0
  | c :: s => c.utf8Size + byteLength s

theorem byteLength_nil : byteLength [] = 0 := rfl

theorem byteLength_cons (c : Char) (s : List Char) :
    byteLength (c :: s) = c.utf8Size + byteLength s := rfl

theorem byteLength_append (s t : List Char) :
    byteLength (s ++ t) = byteLength s + byteLength t := by
  induction s with
  | nil => simp [byteLength]
  | cons c s ih => simp [byteLength, ih, Nat.add_assoc]

theorem splitFirst?_eq_some {sep : Char} {s before after : List Char}
    (h : splitFirst? sep s = some (before, after)) : s = before ++ sep :: after := by
  induction s generalizing before with
  | nil => simp [splitFirst?] at h
  | cons c rest ih =>
    rw [splitFirst?] at h
    split at h
    · next hc => simp at h; simp [← h.1, ← h.2, hc]
    · next hc =>
      obtain ⟨⟨b, a⟩, hba, heq⟩ := Option.map_eq_some_iff.1 h
      simp at heq
      simp [← heq.1, ih (hba.trans (by rw [heq.2]))]

theorem splitFirst?_eq (sep : Char) (s : List Char) : splitFirst? sep s =
    match s.dropWhile (· != sep) with
    | [] => none
    | _ :: after => some (s.takeWhile (· != sep), after) := by
  induction s with
  | nil => rfl
  | cons c s ih =>
    rw [splitFirst?]
    by_cases hc : c = sep
    · simp [hc]
    · rw [if_neg hc, ih, List.dropWhile_cons_of_pos (by simpa using hc),
        List.takeWhile_cons_of_pos (by simpa using hc)]
      cases s.dropWhile (· != sep) <;> rfl

/-- The stretch that is skipped, by the length of what is left. -/
theorem take_sub_dropWhile (q : Char → Bool) (s : List Char) :
    s.take (s.length - (s.dropWhile q).length) = s.takeWhile q := by
  induction s with
  | nil => rfl
  | cons c s ih =>
    cases hq : q c with
    | true =>
      have hle := (List.dropWhile_suffix q (l := s)).length_le
      rw [List.dropWhile_cons_of_pos hq, List.takeWhile_cons_of_pos hq, List.length_cons,
        Nat.succ_sub hle, List.take_succ_cons, ih]
    | false => simp [hq]

end TwinTrees.Text
