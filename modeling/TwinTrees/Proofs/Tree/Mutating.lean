import Mathlib.Data.List.Perm.Subperm
import TwinTrees.Proofs.Disk.Files
import TwinTrees.Proofs.Disk.Success
import TwinTrees.Tree.Mutation

/-!
# What a mutation does to a file

A mutation draws a buffer of bytes and a place in the file for each of them, and writes the bytes to
their places in order. `drawPlaces?` are these draws and `overwrite?` are these writes, both with the
checks that a draw is made from a range with something in it and that a write goes to a place in the
file; `places_of_scatter` says that no check ever fails.

What a list of writes leaves is said once for every place: `getElem?_overwrite` gives it the byte of
the last write there, or the byte that was there. The bound on the places that differ and the source
of their bytes follow from it.
-/

namespace TwinTrees

namespace Disk

variable {d : Disk} {p : Path} {l : Location} {e : Entry} {id : Nat} {bytes : Bytes}

end Disk

namespace Tree

variable {size k : Nat} {bytes contents : Bytes} {writes : List (Nat × UInt8)} {s s' : Source}

/-- The places that so many draws below `size` give. There is no draw from nothing. -/
def drawPlaces? (size : Nat) : Nat → Source → Option (List Nat × Source)
  | 0, s => some ([], s)
  | k + 1, s =>
    if h : 0 < size then
      (drawPlaces? size k (s.below size h).2).map fun (places, s') =>
        ((s.below size h).1.val :: places, s')
    else none

/-- The bytes after writes of single bytes, one after the other. There is no write outside of the
bytes. -/
def overwrite? (bytes : Bytes) : List (Nat × UInt8) → Option Bytes
  | [] => some bytes
  | (i, byte) :: rest => if h : i < bytes.size then overwrite? (bytes.set i byte) rest else none

theorem of_overwrite?_cons {i : Nat} {byte : UInt8}
    (h : overwrite? bytes ((i, byte) :: writes) = some contents) :
    ∃ hi : i < bytes.size, overwrite? (bytes.set i byte) writes = some contents := by
  rw [overwrite?] at h
  split at h
  · next hi => exact ⟨hi, h⟩
  · cases h

theorem size_overwrite (h : overwrite? bytes writes = some contents) :
    contents.size = bytes.size := by
  induction writes generalizing bytes with
  | nil => cases h; rfl
  | cons write writes ih =>
    obtain ⟨hi, hrest⟩ := of_overwrite?_cons h
    rw [ih hrest, Array.size_set]

/-- A place holds the byte of the last write to it, or else what it held. -/
theorem getElem?_overwrite (h : overwrite? bytes writes = some contents) (i : Nat) :
    contents[i]? = (writes.reverse.lookup i).or bytes[i]? := by
  induction writes generalizing bytes with
  | nil => cases h; rfl
  | cons write writes ih =>
    obtain ⟨j, byte⟩ := write
    obtain ⟨hj, hrest⟩ := of_overwrite?_cons h
    rw [ih hrest, List.reverse_cons, List.lookup_append, Option.or_assoc, Array.getElem?_set]
    by_cases hij : i = j
    · subst hij
      simp
    · have hne : (i == j) = false := beq_false_of_ne hij
      simp [List.lookup_cons, hne, Ne.symm hij]

/-- The places at which two arrays of bytes differ. -/
def changedPlaces (bytes contents : Bytes) : List Nat :=
  (List.range bytes.size).filter fun i => contents[i]? ≠ bytes[i]?

/-- A place that has changed holds the byte of a write to it. -/
theorem exists_write_of_changed (h : overwrite? bytes writes = some contents) {i : Nat}
    (hi : contents[i]? ≠ bytes[i]?) : ∃ byte, (i, byte) ∈ writes ∧ contents[i]? = some byte := by
  rw [getElem?_overwrite h] at hi ⊢
  cases hlast : writes.reverse.lookup i with
  | none => rw [hlast] at hi; exact absurd rfl hi
  | some byte =>
    obtain ⟨before, after, heq, -⟩ := List.lookup_eq_some_iff.1 hlast
    refine ⟨byte, List.mem_reverse.1 ?_, rfl⟩
    rw [heq]
    exact List.mem_append_right _ (List.mem_cons_self ..)

/-- No more places change than there are writes. -/
theorem length_changedPlaces_le (h : overwrite? bytes writes = some contents) :
    (changedPlaces bytes contents).length ≤ writes.length := by
  have nodup : (changedPlaces bytes contents).Nodup := List.nodup_range.filter _
  have written : changedPlaces bytes contents ⊆ writes.map Prod.fst := by
    intro i hi
    obtain ⟨byte, hmem, -⟩ := exists_write_of_changed h (of_decide_eq_true (List.mem_filter.1 hi).2)
    exact List.mem_map_of_mem hmem
  calc (changedPlaces bytes contents).length ≤ (writes.map Prod.fst).length :=
        (nodup.subperm written).length_le
    _ = writes.length := List.length_map ..

/-- The draws are as many as were asked for, and each is a place in the file. -/
theorem of_drawPlaces? {places : List Nat} (h : drawPlaces? size k s = some (places, s')) :
    places.length = k ∧ ∀ i ∈ places, i < size := by
  induction k generalizing s places with
  | zero => cases h; exact ⟨rfl, nofun⟩
  | succ k ih =>
    rw [drawPlaces?] at h
    split at h
    · next hsize =>
      obtain ⟨⟨rest, s''⟩, hrest, heq⟩ := Option.map_eq_some_iff.1 h
      cases heq
      obtain ⟨hlength, hinside⟩ := ih hrest
      exact ⟨congrArg (· + 1) hlength, List.forall_mem_cons.2 ⟨Fin.isLt _, hinside⟩⟩
    · cases h

/-- Bytes that are scattered are written to places that are drawn, and no check fails: if there is a
byte to write there is a place to draw, and the place is in the file. -/
theorem places_of_scatter {n : Nat} (v : Vector UInt8 n) (buffer : List UInt8)
    (h : buffer.length ≤ n) (s : Source) :
    ∃ places, drawPlaces? n buffer.length s = some (places, (scatter v buffer h s).2) ∧
      overwrite? v.toArray (places.zip buffer) = some (scatter v buffer h s).1.toArray := by
  induction buffer generalizing v s with
  | nil => exact ⟨[], rfl, rfl⟩
  | cons byte buffer ih =>
    have hn : 0 < n := Nat.lt_of_lt_of_le (Nat.succ_pos _) h
    have hrest : buffer.length ≤ n := Nat.le_of_succ_le h
    obtain ⟨places, hdraw, hwrite⟩ :=
      ih (v.set (s.below n hn).1 byte) hrest (s.below n hn).2
    refine ⟨(s.below n hn).1.val :: places, ?_, ?_⟩
    · rw [List.length_cons, drawPlaces?, dif_pos hn, hdraw]
      rfl
    · have hplace : (s.below n hn).1.val < v.toArray.size := by
        rw [Vector.size_toArray]
        exact Fin.isLt _
      rw [List.zip_cons_cons, overwrite?, dif_pos hplace]
      exact hwrite

/-! ## The number of bytes to write -/

/-- A mutation is refused: a percentage is too large, or the size times a percentage is no 64-bit
number. -/
def Refused (size min max : Nat) : Prop :=
  maxPercent < min ∨ maxPercent < max ∨ wordLimit ≤ size * min ∨ wordLimit ≤ size * max

instance {size min max : Nat} : Decidable (Refused size min max) :=
  inferInstanceAs (Decidable (_ ∨ _))

/-- What is wrong with a mutation that is refused. The percentages are looked at first. -/
def refusal (size min max : Nat) : ArgumentFault :=
  if min ≤ maxPercent ∧ max ≤ maxPercent then .fileTooLarge size else .percentTooLarge min max

theorem share_eq_error {percent : Nat} (h : wordLimit ≤ size * percent) :
    share size percent = .error (.fileTooLarge size) := if_neg (Nat.not_lt_of_le h)

theorem share_eq_ok {percent : Nat} (h : size * percent < wordLimit) :
    share size percent = .ok (size * percent / 100) := if_pos h

theorem bounds_of_not_refused {min max : Nat} (h : ¬ Refused size min max) :
    min ≤ maxPercent ∧ max ≤ maxPercent ∧ size * min < wordLimit ∧ size * max < wordLimit := by
  simpa only [Refused, not_or, Nat.not_lt, Nat.not_le] using h

theorem mutationCount_of_refused {min max : Nat} (h : Refused size min max) :
    mutationCount size min max s = .error (refusal size min max) := by
  unfold mutationCount refusal
  split
  · next hp =>
    have hlarge : wordLimit ≤ size * min ∨ wordLimit ≤ size * max := by
      rcases h with h | h | h
      · exact absurd hp.1 (Nat.not_le_of_lt h)
      · exact absurd hp.2 (Nat.not_le_of_lt h)
      · exact h
    split
    · next fault hlow =>
      rw [share] at hlow
      split at hlow
      · cases hlow
      · cases hlow; rfl
    · next low hlow =>
      rcases hlarge with hlarge | hlarge
      · rw [share_eq_error hlarge] at hlow; cases hlow
      · split
        · next fault hhigh =>
          rw [share_eq_error hlarge] at hhigh
          cases hhigh
          rfl
        · next high hhigh => rw [share_eq_error hlarge] at hhigh; cases hhigh
  · rfl

theorem exists_mutationCount_of_not_refused {min max : Nat} (h : ¬ Refused size min max) :
    ∃ writes s', mutationCount size min max s = .ok (writes, s') := by
  obtain ⟨hmin, hmax, hlow, hhigh⟩ := bounds_of_not_refused h
  have hlow := share_eq_ok hlow
  have hhigh := share_eq_ok hhigh
  unfold mutationCount
  rw [dif_pos ⟨hmin, hmax⟩]
  split
  · next fault h => rw [hlow] at h; cases h
  · split
    · next fault h => rw [hhigh] at h; cases h
    · split
      · exact ⟨_, _, rfl⟩
      · exact ⟨_, _, rfl⟩

/-! ## The whole mutation -/

/-- What a mutation makes of the bytes of a file, with a buffer of new bytes and a place for each of
them. Of the bytes that were there it leaves `contents`, and the file ends up with `after`. -/
structure Mutates (bytes : Bytes) (m : Mutation) (buffer : List UInt8) (places : List Nat)
    (contents after : Bytes) : Prop where
  size : m.size = bytes.size
  length_buffer : buffer.length = m.writes
  length_places : places.length = m.writes
  inFile : ∀ i ∈ places, i < bytes.size
  written : overwrite? bytes (places.zip buffer) = some contents
  size_contents : contents.size = bytes.size
  lastWins : ∀ i : Nat, contents[i]? = ((places.zip buffer).reverse.lookup i).or bytes[i]?
  few : (changedPlaces bytes contents).length ≤ m.writes
  fromBuffer : ∀ i : Nat, contents[i]? ≠ bytes[i]? → ∃ byte ∈ buffer, contents[i]? = some byte
  after : after = if m.appended then contents ++ buffer.toArray else contents

theorem Mutates.of_written {m : Mutation} {buffer : List UInt8} {places : List Nat} {after : Bytes}
    (size : m.size = bytes.size) (length_buffer : buffer.length = m.writes)
    (drawn : drawPlaces? bytes.size m.writes s = some (places, s'))
    (written : overwrite? bytes (places.zip buffer) = some contents)
    (h : after = if m.appended then contents ++ buffer.toArray else contents) :
    Mutates bytes m buffer places contents after := by
  obtain ⟨length_places, inFile⟩ := of_drawPlaces? drawn
  refine ⟨size, length_buffer, length_places, inFile, written, size_overwrite written,
    getElem?_overwrite written, ?_, ?_, h⟩
  · calc (changedPlaces bytes contents).length ≤ (places.zip buffer).length :=
          length_changedPlaces_le written
      _ = m.writes := by rw [List.length_zip, length_places, length_buffer, Nat.min_self]
  · intro i hi
    obtain ⟨byte, hmem, hbyte⟩ := exists_write_of_changed written hi
    exact ⟨byte, (List.of_mem_zip hmem).2, hbyte⟩

theorem mutateBytes_mutates (bytes : Bytes) (writes : ByteCount bytes.size) (s : Source) :
    ∃ places contents s', drawPlaces? bytes.size writes (s.bytes writes).2 = some (places, s') ∧
      Mutates bytes ⟨bytes.size, writes, (mutateBytes bytes writes s).1.2⟩ (s.bytes writes).1 places
        contents (mutateBytes bytes writes s).1.1 := by
  have hlength : (s.bytes writes).1.length = writes := s.length_bytes writes
  obtain ⟨places, hdraw, hwrite⟩ := places_of_scatter bytes.toVector (s.bytes writes).1
    (hlength.trans_le writes.2) (s.bytes writes).2
  have hdrawn := (congrArg (drawPlaces? bytes.size · (s.bytes writes).2) hlength).symm.trans hdraw
  exact ⟨places, _, _, hdrawn, .of_written rfl hlength hdrawn hwrite rfl⟩

variable {w : World} {p : Path} {l : Location} {e : Entry} {id min max : Nat}

end Tree

end TwinTrees
