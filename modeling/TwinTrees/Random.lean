import TwinTrees.Size

/-!
# Random draws

A source of randomness is an endless sequence of 64-bit words with a position in it. All draws are
made from its words: a buffer takes one word for every eight bytes; a number below `n` is the upper
half of the product of a word and `n`, where words whose lower half is too large are passed over, so
that all numbers are equally likely.

A source must be fair: for no `n` are all words from some position on passed over. So every draw
ends, and `Source.below` is total. `Source.seeded` is the sequence of a seed; it is fair because its
words run through all 64-bit words again and again.
-/

namespace TwinTrees

/-- The largest lower half with which a word counts in a draw below `n`. -/
def drawZone (n : Nat) : Nat := n <<< (63 - n.log2) - 1

/-- Whether a word counts in a draw below `n`. -/
def counts (n : Nat) (word : UInt64) : Bool :=
  word.toNat * n % wordLimit ≤ drawZone n

/-- An endless sequence of words and a position in it. -/
structure Source where
  word : Nat → UInt64
  position : Nat
  fair : ∀ n k, ∃ m, k ≤ m ∧ counts n (word m) = true

/-- One step of a search upwards for a number that satisfies `p`. -/
def SearchStep (p : Nat → Bool) (a b : Nat) : Prop := a = b + 1 ∧ p b = false

theorem searchStep_accessible {p : Nat → Bool} (recurs : ∀ k, ∃ m, k ≤ m ∧ p m = true) (k : Nat) :
    Acc (SearchStep p) k := by
  obtain ⟨m, hkm, hm⟩ := recurs k
  suffices h : ∀ d k, m - k = d → k ≤ m → Acc (SearchStep p) k from h (m - k) k rfl hkm
  intro d
  induction d with
  | zero =>
    intro k hd hk
    have : k = m := by omega
    subst this
    exact ⟨_, fun a ha => by simp [ha.2] at hm⟩
  | succ d ih =>
    intro k hd hk
    exact ⟨_, fun a ha => ha.1 ▸ ih (k + 1) (by omega) (by omega)⟩

/-- What is accessible is so in a way that shows at once for the first `n` steps, so that a recursion
can be evaluated as far as that. -/
theorem accessible_ahead {α : Type} {r : α → α → Prop} (h : ∀ a, Acc r a) : Nat → ∀ a, Acc r a
  | 0, a => h a
  | n + 1, a => ⟨a, fun b _ => accessible_ahead h n b⟩

theorem searchStep_wellFounded {p : Nat → Bool} (recurs : ∀ k, ∃ m, k ≤ m ∧ p m = true) :
    WellFounded (SearchStep p) := ⟨accessible_ahead (searchStep_accessible recurs) 64⟩

/-- The first number from `k` on that satisfies `p`. -/
def firstFrom (p : Nat → Bool) (recurs : ∀ k, ∃ m, k ≤ m ∧ p m = true) (k : Nat) : Nat :=
  (searchStep_wellFounded recurs).fix
    (fun k next => if h : p k = true then k else next (k + 1) ⟨rfl, Bool.eq_false_iff.2 h⟩) k

theorem firstFrom_eq (p : Nat → Bool) (recurs : ∀ k, ∃ m, k ≤ m ∧ p m = true) (k : Nat) :
    firstFrom p recurs k = if p k = true then k else firstFrom p recurs (k + 1) :=
  WellFounded.fix_eq ..

theorem firstFrom_spec (p : Nat → Bool) (recurs : ∀ k, ∃ m, k ≤ m ∧ p m = true) (k : Nat) :
    k ≤ firstFrom p recurs k ∧ p (firstFrom p recurs k) = true := by
  induction k using (searchStep_wellFounded recurs).induction with
  | _ k ih =>
    rw [firstFrom_eq]
    split
    · next h => exact ⟨Nat.le_refl k, h⟩
    · next h =>
      have := ih (k + 1) ⟨rfl, by simpa using h⟩
      exact ⟨by omega, this.2⟩

/-- The bytes of a word, the lowest first. -/
def wordBytes (word : UInt64) : List UInt8 :=
  (List.range 8).map fun i => (word >>> (8 * i).toUInt64).toUInt8

namespace Source

/-- The source some words further on. -/
def skip (s : Source) (words : Nat) : Source :=
  { s with position := s.position + words }

/-- The next word. -/
def next (s : Source) : UInt64 × Source :=
  (s.word s.position, s.skip 1)

/-- The position of the first word from here on that counts in a draw below `n`. -/
def accepted (s : Source) (n : Nat) : Nat :=
  firstFrom (fun m => counts n (s.word m)) (s.fair n) s.position

/-- A number below `n`. -/
def below (s : Source) (n : Nat) (h : 0 < n) : Fin n × Source :=
  let m := s.accepted n
  (⟨(s.word m).toNat * n / wordLimit, by
      rw [Nat.div_lt_iff_lt_mul (by decide), Nat.mul_comm n]
      exact Nat.mul_lt_mul_of_pos_right (s.word m).toNat_lt h⟩,
    { s with position := m + 1 })

/-- A number from `low` up to but without `high`. -/
def between (s : Source) (low high : Nat) (h : low < high) :
    { n : Nat // low ≤ n ∧ n < high } × Source :=
  let (n, s) := s.below (high - low) (by omega)
  (⟨low + n, by omega, by omega⟩, s)

/-- `size` bytes. -/
def bytes (s : Source) (size : Nat) : List UInt8 × Source :=
  let words := (size + 7) / 8
  (((List.range words).flatMap fun i => wordBytes (s.word (s.position + i))).take size,
    s.skip words)

theorem length_bytes (s : Source) (size : Nat) : (s.bytes size).1.length = size := by
  simp only [bytes, List.length_take, List.length_flatMap]
  have h : ((List.range ((size + 7) / 8)).map fun i =>
      (wordBytes (s.word (s.position + i))).length) = List.replicate ((size + 7) / 8) 8 := by
    rw [List.eq_replicate_iff]
    simp [wordBytes]
  rw [h, List.sum_replicate_nat]
  omega

/-- Thirty per cent of the words are below this one. -/
def thirtyPercent : Nat := 5534023222112865280

/-- True in thirty of a hundred cases. -/
def thirtyOfHundred (s : Source) : Bool × Source :=
  let (word, s) := s.next
  (decide (word.toNat < thirtyPercent), s)

end Source

/-- A mixing of the bits of a word, which is a bijection of the words. -/
def mixWord (z : UInt64) : UInt64 :=
  let z := (z ^^^ (z >>> 30)) * 0xBF58476D1CE4E5B9
  let z := (z ^^^ (z >>> 27)) * 0x94D049BB133111EB
  z ^^^ (z >>> 31)

/-- The distance of the states from which successive words are mixed. It is odd, so the states run
through all words. -/
def stateStride : UInt64 := 0x9E3779B97F4A7C15

/-- The inverse of the stride. -/
def stateStrideInverse : UInt64 := 0xF1DE83E19937733D

theorem stateStride_mul_inverse : stateStrideInverse * stateStride = 1 := by decide

/-- The words of a seed. -/
def seededWord (seed : UInt64) (k : Nat) : UInt64 :=
  mixWord (seed + UInt64.ofNat (k + 1) * stateStride)

theorem mixWord_zero : mixWord 0 = 0 := by decide

theorem exists_seededWord_eq_zero (seed : UInt64) (k : Nat) :
    ∃ m, k ≤ m ∧ seededWord seed m = 0 := by
  refine ⟨(-seed * stateStrideInverse).toNat + 2 ^ 64 * (k + 1) - 1, by omega, ?_⟩
  have hm : (-seed * stateStrideInverse).toNat + 2 ^ 64 * (k + 1) - 1 + 1
      = (-seed * stateStrideInverse).toNat + 2 ^ 64 * (k + 1) := by omega
  have hn : UInt64.ofNat ((-seed * stateStrideInverse).toNat + 2 ^ 64 * (k + 1))
      = -seed * stateStrideInverse := by
    apply UInt64.toNat_inj.1
    rw [UInt64.toNat_ofNat', Nat.add_mul_mod_self_left]
    exact Nat.mod_eq_of_lt (UInt64.toNat_lt _)
  rw [seededWord, hm, hn, UInt64.mul_assoc, stateStride_mul_inverse, UInt64.mul_one,
    UInt64.add_right_neg, mixWord_zero]

/-- The source of a seed. -/
def Source.seeded (seed : UInt64) : Source where
  word := seededWord seed
  position := 0
  fair n k := by
    obtain ⟨m, hkm, hm⟩ := exists_seededWord_eq_zero seed k
    exact ⟨m, hkm, by simp [hm, counts]⟩

end TwinTrees
