import Mathlib.Data.Nat.Digits.Defs
import Mathlib.Tactic.SplitIfs
import TwinTrees.Proofs.Text.Basic
import TwinTrees.Size

/-!
# Sizes as they are written

A size is written as decimal digits and a unit (`WrittenSize`), with white space around them. What is
read from such a text is the number that the digits stand for, times the power of two that the unit
stands for, if this is below 2^64; and nothing is read from any other text (`readSize_exact`). The
limit is met in two places. A number that is too large is found while its digits are read, where the
value so far only grows (`readDigits_eq`), and a product once the unit is known.
-/

namespace TwinTrees

/-! ## The written form -/

/-- The units in small letters, each with the number of binary places by which it moves a number. -/
def sizeUnits : List (List Char × Nat) :=
  [([], 0), (['b'], 0),
    (['k'], 10), (['k', 'b'], 10), (['k', 'i', 'b'], 10),
    (['m'], 20), (['m', 'b'], 20), (['m', 'i', 'b'], 20),
    (['g'], 30), (['g', 'b'], 30), (['g', 'i', 'b'], 30),
    (['t'], 40), (['t', 'b'], 40), (['t', 'i', 'b'], 40)]

/-- The number that decimal digits stand for, the first of them the highest. -/
def decimal (digits : List Char) : Nat :=
  Nat.ofDigits 10 (digits.reverse.map fun c => c.toNat - '0'.toNat)

/-- Digits and a unit, in letters of either case. -/
structure WrittenSize where
  digits : List Char
  unit : List Char
  shift : Nat
  nonempty : digits ≠ []
  isDigits : ∀ c ∈ digits, c.isDigit = true
  isUnit : (unit.map Char.toLower, shift) ∈ sizeUnits

namespace WrittenSize

variable (s : WrittenSize)

/-- The number that the digits stand for. -/
def number : Nat := decimal s.digits

/-- The size that is meant. -/
def value : Nat := s.number * 2 ^ s.shift

/-- The text is the size with white space around it. -/
def IsIn (text : List Char) : Prop :=
  ∃ lead trail, (∀ c ∈ lead, Text.isBlank c = true) ∧ (∀ c ∈ trail, Text.isBlank c = true) ∧
    text = lead ++ ((s.digits ++ s.unit) ++ trail)

end WrittenSize

/-! ## Digits -/

theorem digitValue?_eq (c : Char) :
    digitValue? c = if c.isDigit = true then some (c.toNat - '0'.toNat) else none := by
  have hdigit : ('0' ≤ c ∧ c ≤ '9') ↔ c.isDigit = true := by
    rw [Char.isDigit_iff_toNat]
    exact Iff.rfl
  rw [digitValue?]
  simp only [hdigit]

theorem isSome_digitValue? (c : Char) : (digitValue? c).isSome = c.isDigit := by
  rw [digitValue?_eq]
  cases c.isDigit <;> rfl

theorem decimal_cons (c : Char) (digits : List Char) :
    decimal (c :: digits) = (c.toNat - '0'.toNat) * 10 ^ digits.length + decimal digits := by
  unfold decimal
  rw [List.reverse_cons, List.map_append, Nat.ofDigits_append, List.length_map, List.length_reverse,
    Nat.add_comm, Nat.mul_comm, List.map_singleton, Nat.ofDigits_singleton]

/-- Digits are read as the number that they stand for, after the value of the digits before. -/
theorem readDigits_eq {digits : List Char} (h : ∀ c ∈ digits, c.isDigit = true) {before : Nat}
    (hbefore : before < wordLimit) :
    readDigits before digits =
      if before * 10 ^ digits.length + decimal digits < wordLimit then
        .ok (before * 10 ^ digits.length + decimal digits)
      else .error .tooLarge := by
  induction digits generalizing before with
  | nil => simp [readDigits, decimal, hbefore]
  | cons c digits ih =>
    obtain ⟨hc, hdigits⟩ := List.forall_mem_cons.1 h
    have hvalue : before * 10 ^ (c :: digits).length + decimal (c :: digits) =
        (before * 10 + (c.toNat - '0'.toNat)) * 10 ^ digits.length + decimal digits := by
      rw [decimal_cons, List.length_cons, Nat.pow_succ, Nat.add_mul, Nat.add_assoc,
        Nat.mul_assoc before 10, Nat.mul_comm 10]
    rw [readDigits, digitValue?_eq, if_pos hc, hvalue]
    simp only
    split
    · next hnext => exact ih hdigits hnext
    · next hnext =>
      -- the digits that follow do not make the value smaller
      have hgrows := Nat.le_mul_of_pos_right (before * 10 + (c.toNat - '0'.toNat))
        (Nat.pow_pos (n := digits.length) (show 0 < 10 by decide))
      rw [if_neg (by omega)]

/-! ## Units -/

theorem unitShift?_eq_some_iff {unit : List Char} {shift : Nat} :
    unitShift? unit = some shift ↔ (unit, shift) ∈ sizeUnits := by
  constructor
  · intro h
    unfold unitShift? at h
    split_ifs at h with h₀ h₁ h₂ h₃ h₄ <;> cases h
    · exact (by decide : ∀ u ∈ [[], ['b']], (u, 0) ∈ sizeUnits) unit h₀
    · exact (by decide : ∀ u ∈ [['k'], ['k', 'b'], ['k', 'i', 'b']], (u, 10) ∈ sizeUnits) unit h₁
    · exact (by decide : ∀ u ∈ [['m'], ['m', 'b'], ['m', 'i', 'b']], (u, 20) ∈ sizeUnits) unit h₂
    · exact (by decide : ∀ u ∈ [['g'], ['g', 'b'], ['g', 'i', 'b']], (u, 30) ∈ sizeUnits) unit h₃
    · exact (by decide : ∀ u ∈ [['t'], ['t', 'b'], ['t', 'i', 'b']], (u, 40) ∈ sizeUnits) unit h₄
  · have hall : ∀ x ∈ sizeUnits, unitShift? x.1 = some x.2 := by decide
    exact hall _

/-- White space and digits have no small letters. -/
theorem toLower_of_no_letter {c : Char} (h : Text.isBlank c = true ∨ c.isDigit = true) :
    c.toLower = c := by
  rw [Char.isDigit_iff_toNat] at h
  refine dif_neg fun ⟨hA, hZ⟩ => ?_
  have hA : 65 ≤ c.toNat := hA
  have hZ : c.toNat ≤ 90 := hZ
  obtain hblank | hdigit := h
  · simp [Text.isBlank] at hblank
    omega
  · have h9 : c.toNat ≤ 57 := hdigit.2
    omega

/-- Neither white space nor a digit is a letter of a unit. -/
theorem of_mem_unit {unit : List Char} {shift : Nat}
    (h : (unit.map Char.toLower, shift) ∈ sizeUnits) {c : Char} (hc : c ∈ unit) :
    Text.isBlank c = false ∧ c.isDigit = false := by
  have hletters : ∀ x ∈ sizeUnits,
      x.1.all (fun c => !Text.isBlank c && !c.isDigit) = true := by decide
  have hletter := List.all_eq_true.1 (hletters _ h) _ (List.mem_map_of_mem hc)
  obtain ⟨hblank, hdigit⟩ : Text.isBlank c.toLower = false ∧ c.toLower.isDigit = false := by
    simpa using hletter
  constructor <;> rw [Bool.eq_false_iff] <;> intro hyes
  · rw [toLower_of_no_letter (.inl hyes), hyes] at hblank
    cases hblank
  · rw [toLower_of_no_letter (.inr hyes), hyes] at hdigit
    cases hdigit

/-! ## Sizes -/

theorem isBlank_of_isDigit {c : Char} (h : c.isDigit = true) : Text.isBlank c = false := by
  obtain ⟨h0, h9⟩ := Char.isDigit_iff_toNat.1 h
  have h0 : 48 ≤ c.toNat := h0
  have h9 : c.toNat ≤ 57 := h9
  simp [Text.isBlank]
  omega

namespace WrittenSize

variable {s : WrittenSize} {text : List Char}

theorem notBlank (s : WrittenSize) : ∀ c ∈ s.digits ++ s.unit, Text.isBlank c = false := by
  intro c hc
  obtain hc | hc := List.mem_append.1 hc
  · exact isBlank_of_isDigit (s.isDigits c hc)
  · exact (of_mem_unit s.isUnit hc).1

/-- The white space around a size is what is trimmed. -/
theorem IsIn.trim_eq (h : s.IsIn text) : Text.trim text = s.digits ++ s.unit := by
  obtain ⟨lead, trail, hlead, htrail, rfl⟩ := h
  rw [Text.trim_append hlead htrail, Text.trim]
  have hstart : (s.digits ++ s.unit).dropWhile Text.isBlank = s.digits ++ s.unit :=
    List.dropWhile_eq_self_iff.2 fun hlength => by
      simp [s.notBlank]
  rw [hstart]
  exact Text.dropEndWhile_eq_self fun c hc => s.notBlank c (List.mem_of_getLast? hc)

/-- The digits end where the unit begins. -/
theorem digits_of_written (s : WrittenSize) :
    ((s.digits ++ s.unit).takeWhile fun c => (digitValue? c).isSome) = s.digits ∧
      ((s.digits ++ s.unit).dropWhile fun c => (digitValue? c).isSome) = s.unit := by
  simp only [isSome_digitValue?]
  rw [List.takeWhile_append_of_pos s.isDigits, List.dropWhile_append_of_pos s.isDigits]
  cases hunit : s.unit with
  | nil => simp
  | cons c rest =>
    have hc := (of_mem_unit s.isUnit (hunit ▸ List.mem_cons_self)).2
    simp [hc]

/-- What is read from a text in which a size is written. -/
theorem readSize_of_isIn (h : s.IsIn text) : readSize text =
    if wordLimit ≤ s.number then .error (.noNumber text)
    else if wordLimit ≤ s.value then .error (.tooLarge text) else .ok s.value := by
  obtain ⟨hdigits, hunit⟩ := s.digits_of_written
  have hread : readDigits 0 s.digits =
      if s.number < wordLimit then .ok s.number else .error .tooLarge := by
    rw [readDigits_eq s.isDigits (show 0 < wordLimit by decide), Nat.zero_mul, Nat.zero_add]
    rfl
  unfold readSize
  simp only [h.trim_eq, hdigits, hunit, hread, unitShift?_eq_some_iff.2 s.isUnit, Nat.shiftLeft_eq]
  by_cases hnumber : s.number < wordLimit
  · rw [if_pos hnumber, if_neg (Nat.not_le.2 hnumber)]
    split
    · next hnil => exact absurd hnil s.nonempty
    · next hfault _ => cases hfault
    · next hok _ =>
      cases hok
      by_cases hvalue : s.value < wordLimit
      · rw [if_neg (Nat.not_le.2 hvalue)]
        exact if_pos hvalue
      · rw [if_pos (Nat.not_lt.1 hvalue)]
        exact if_neg hvalue
  · rw [if_neg hnumber, if_pos (Nat.not_lt.1 hnumber)]
    split
    · rfl
    · rfl
    · next hok _ => cases hok

/-- Where a size is read, one is written. -/
theorem exists_of_readSize {v : Nat} (h : readSize text = .ok v) :
    ∃ s : WrittenSize, s.IsIn text := by
  unfold readSize at h
  simp only at h
  split at h
  · cases h
  · cases h
  · next nonempty =>
    split at h
    · cases h
    · next shift hunit =>
      refine ⟨⟨_, _, shift, nonempty, fun c hc => ?_, unitShift?_eq_some_iff.1 hunit⟩, ?_⟩
      · have hdigit := List.mem_takeWhile_imp hc
        rwa [isSome_digitValue?] at hdigit
      · obtain ⟨lead, trail, hlead, htrail, htext⟩ := Text.exists_trim text
        refine ⟨lead, trail, hlead, htrail, ?_⟩
        rwa [List.takeWhile_append_dropWhile]

end WrittenSize

/-- A size is read from a text if and only if the text is one written in digits and a unit, with white
space around it, that is below 2^64; it is then the number that the digits stand for, times the power
of two that the unit stands for. Where a size is written that is not below 2^64, the fault says whether
its number already is not, or the product alone. -/
theorem readSize_exact (text : List Char) :
    (∀ v, readSize text = .ok v ↔ ∃ s : WrittenSize, s.IsIn text ∧ v = s.value ∧ v < 2 ^ 64) ∧
    (∀ s : WrittenSize, s.IsIn text → 2 ^ 64 ≤ s.value →
      readSize text = .error (if 2 ^ 64 ≤ s.number then .noNumber text else .tooLarge text)) ∧
    ((∀ s : WrittenSize, ¬ s.IsIn text) → ∃ fault, readSize text = .error fault) := by
  refine ⟨fun v => ⟨fun h => ?_, ?_⟩, fun s hin hlarge => ?_, fun hnone => ?_⟩
  · obtain ⟨s, hin⟩ := WrittenSize.exists_of_readSize h
    rw [WrittenSize.readSize_of_isIn hin] at h
    split at h
    · cases h
    · split at h
      · cases h
      · next hvalue =>
        cases h
        exact ⟨s, hin, rfl, Nat.not_le.1 hvalue⟩
  · rintro ⟨s, hin, rfl, hvalue⟩
    change s.value < wordLimit at hvalue
    have hnumber : s.number < wordLimit :=
      Nat.lt_of_le_of_lt (Nat.le_mul_of_pos_right _ (Nat.two_pow_pos _)) hvalue
    rw [WrittenSize.readSize_of_isIn hin, if_neg (Nat.not_le.2 hnumber), if_neg (Nat.not_le.2 hvalue)]
  · rw [WrittenSize.readSize_of_isIn hin, if_pos (show wordLimit ≤ s.value from hlarge)]
    exact (apply_ite Except.error _ _ _).symm
  · cases h : readSize text with
    | error fault => exact ⟨fault, rfl⟩
    | ok v =>
      obtain ⟨s, hin⟩ := WrittenSize.exists_of_readSize h
      exact absurd hin (hnone s)

/-- Seven kilobytes with zeros in front and white space around; 2^24 terabytes; a number that is too
large by itself; and no digits at all. -/
theorem readSize_exact_at_limit :
    readSize "\u2003007KiB\t".toList = .ok 7168 ∧
      readSize "16777216T".toList = .error (.tooLarge "16777216T".toList) ∧
      readSize "18446744073709551616".toList = .error (.noNumber "18446744073709551616".toList) ∧
      ∃ fault, readSize "".toList = .error fault := by
  refine ⟨?_, ?_, ?_, ?_⟩
  · exact ((readSize_exact _).1 7168).2
      ⟨⟨"007".toList, "KiB".toList, 10, by decide, List.all_eq_true.1 rfl, by decide⟩,
        ⟨"\u2003".toList, "\t".toList, List.all_eq_true.1 rfl, List.all_eq_true.1 rfl, by decide⟩,
        by decide, by decide⟩
  · exact (readSize_exact _).2.1
      ⟨"16777216".toList, "T".toList, 40, by decide, List.all_eq_true.1 rfl, by decide⟩
      ⟨[], [], nofun, nofun, by decide⟩ (by decide)
  · exact (readSize_exact _).2.1
      ⟨"18446744073709551616".toList, [], 0, by decide, List.all_eq_true.1 rfl, by decide⟩
      ⟨[], [], nofun, nofun, by decide⟩ (by decide)
  · refine (readSize_exact _).2.2 fun s => ?_
    rintro ⟨lead, trail, -, -, htext⟩
    obtain ⟨-, hwritten⟩ := List.nil_eq_append_iff.1 htext
    exact s.nonempty (List.append_eq_nil_iff.1 (List.append_eq_nil_iff.1 hwritten).1).1

end TwinTrees
