import TwinTrees.Proofs.Disk.Files

/-!
# The bits of directories

A directory is made with some of the bits that are asked for (`directoryModeMask`) and with the bit
that the directory above hands down (`inheritedBit`). What bits the directories of a disk have
(`Disk.directoryBits?`) is changed by making directories only, not by making and writing files or
links.
-/

namespace TwinTrees

/-- All bits of a mode. -/
def allBits : Mode := 0o7777

/-- The bits that a directory does not get by being made with them. -/
def withheldBits : Mode := allBits ^^^ directoryModeMask

/-- The bits of a directory that is made with these bits, if the one above hands down this bit. -/
def madeBits (bits inherited : Mode) : Mode := (bits &&& directoryModeMask) ||| inherited

section Masks

variable {bits inherited : Mode}

/-- What is handed down is handed down again. -/
theorem handedDown_and (bits : Mode) :
    bits &&& inheritedBit &&& inheritedBit = bits &&& inheritedBit := by
  rw [Nat.and_assoc, Nat.and_self]

/-- What a directory hands down is what it has inherited. -/
theorem madeBits_and_inheritedBit (h : inherited &&& inheritedBit = inherited) :
    madeBits bits inherited &&& inheritedBit = inherited := by
  have hmask : directoryModeMask &&& inheritedBit = 0 := by decide
  rw [madeBits, Nat.and_or_distrib_right, Nat.and_assoc, hmask, Nat.and_zero, Nat.zero_or, h]

/-- A directory gets the bits that are asked for exactly if those that are withheld are what is
inherited. -/
theorem madeBits_eq_iff (h : inherited &&& inheritedBit = inherited) :
    madeBits bits inherited &&& allBits = bits &&& allBits ↔ bits &&& withheldBits = inherited := by
  have hall : directoryModeMask ||| withheldBits = allBits := by decide
  have hdisjoint : directoryModeMask &&& withheldBits = 0 := by decide
  have hcontained : allBits &&& withheldBits = withheldBits := by decide
  have hwithheld : inherited &&& withheldBits = inherited := by
    rw [← h, Nat.and_assoc, show inheritedBit &&& withheldBits = inheritedBit by decide]
  have hwhole : madeBits bits inherited &&& allBits = madeBits bits inherited := by
    rw [madeBits, Nat.and_or_distrib_right, Nat.and_assoc,
      show directoryModeMask &&& allBits = directoryModeMask by decide, ← h, Nat.and_assoc,
      show inheritedBit &&& allBits = inheritedBit by decide]
  rw [hwhole, madeBits]
  constructor
  · intro heq
    have hcut := congrArg (· &&& withheldBits) heq
    simp only [Nat.and_or_distrib_right, Nat.and_assoc, hdisjoint, hcontained, hwithheld, Nat.and_zero,
      Nat.zero_or] at hcut
    exact hcut.symm
  · intro heq
    rw [← hall, Nat.and_or_distrib_left, heq]

end Masks

namespace Disk

variable {d : Disk} {l dir : Location} {n : Name} {node : Node} {mode bits : Mode} {t : Time}
  {f : OpenFile} {bytes : Bytes}

/-- The bits of the directory at the location, if there is one. -/
def directoryBits? (d : Disk) (l : Location) : Option Mode :=
  (d.get? l).bind fun e => if e.node = .directory then some e.mode else none

theorem directoryBits?_eq_some_iff : d.directoryBits? l = some bits ↔
    ∃ e, d.get? l = some e ∧ e.node = .directory ∧ e.mode = bits := by
  simp [directoryBits?, Option.bind_eq_some_iff]

theorem directoryBits?_eq_none_iff : d.directoryBits? l = none ↔ ¬ d.IsDir l := by
  rw [isDir_iff, Option.eq_none_iff_forall_ne_some]
  constructor
  · rintro h ⟨e, he, hnode⟩
    exact h _ (directoryBits?_eq_some_iff.2 ⟨e, he, hnode, rfl⟩)
  · intro h bits hbits
    obtain ⟨e, he, hnode, -⟩ := directoryBits?_eq_some_iff.1 hbits
    exact h ⟨e, he, hnode⟩

theorem isDir_of_directoryBits? (h : d.directoryBits? l = some bits) : d.IsDir l := by
  obtain ⟨e, he, hnode, -⟩ := directoryBits?_eq_some_iff.1 h
  exact isDir_of_get? he hnode

theorem directoryMode_eq (h : d.directoryBits? dir = some bits) :
    d.directoryMode dir mode = madeBits mode (bits &&& inheritedBit) := by
  obtain ⟨e, he, -, rfl⟩ := directoryBits?_eq_some_iff.1 h
  rw [directoryMode, he]
  rfl

/-- A new directory has the bits that it is made with, and the others keep theirs. -/
theorem directoryBits?_addEntry_directory :
    (d.addEntry t dir n .directory mode).directoryBits? l =
      if l = dir ++ [n] then some mode else d.directoryBits? l := by
  unfold directoryBits?
  rw [get?_addEntry]
  split
  · rfl
  · split
    · cases d.get? l <;> rfl
    · rfl

/-- What is made is no directory. -/
theorem directoryBits?_addEntry (free : d.node? (dir ++ [n]) = none) (hnode : node ≠ .directory) :
    (d.addEntry t dir n node mode).directoryBits? = d.directoryBits? := by
  funext l
  unfold directoryBits?
  rw [get?_addEntry]
  split
  · next heq =>
    rw [heq, node?_eq_none_iff.1 free]
    exact if_neg hnode
  · split
    · cases d.get? l <;> rfl
    · rfl

theorem directoryBits?_store : (d.store t f bytes).directoryBits? = d.directoryBits? := by
  funext l
  unfold directoryBits?
  rw [store, get?_update]
  split
  · cases d.get? l with
    | none => rfl
    | some e =>
      cases hnode : e.node with
      | directory => simp [hnode]
      | symlink old => simp [hnode]
      | file id old =>
        simp only [hnode, Option.map_some, Option.bind_some]
        split <;> simp [hnode]
  · rfl

end Disk

end TwinTrees
