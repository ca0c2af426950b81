import TwinTrees.Proofs.Disk.Part
import TwinTrees.Tree.Make

/-!
# Kinds, bits, times and lists

What is often all that is known of an entry: its kind (`Disk.kind?`), that it has the bits that a
test gives to entries of its kind (`madeMode`), that it was modified at a given time
(`Disk.HasTime`), or that it is among those of a directory (`Disk.Lists`).
-/

namespace TwinTrees

/-- A directory with these bits hands them down to the directories that are made in it. -/
def HandsDown (mode : Mode) : Prop :=
  (Tree.directoryMode &&& directoryModeMask) ||| (mode &&& inheritedBit) = mode

/-- The bits that a test gives to entries of a kind, if its directories have the bits `mode`. -/
def madeMode (mode : Mode) : Kind → Mode
  | .directory => mode
  | .file => Tree.fileMode
  | .symlink => 0o777

/-- The entries have one kind, the same bytes or the same path, and the same bits; and if they are no
links, both were modified at the time. -/
structure Entry.Matches (t : Time) (a b : Entry) : Prop where
  node : a.node.shown = b.node.shown
  mode : a.mode = b.mode
  time : a.node.kind ≠ .symlink → a.modified = t ∧ b.modified = t

namespace Disk

variable {d d' : Disk} {l m : Location} {t : Time}

/-- The kind of what is at a location. -/
def kind? (d : Disk) (l : Location) : Option Kind := (d.node? l).map Node.kind

theorem kind?_eq_directory_iff : d.kind? l = some .directory ↔ d.IsDir l := by
  rw [kind?, Option.map_eq_some_iff, IsDir]
  constructor
  · rintro ⟨node, hnode, hkind⟩
    rw [hnode, kind_eq_directory_iff.1 hkind]
  · exact fun h => ⟨_, h, rfl⟩

theorem kind?_eq_of_shown (h : (d'.get? l).map (Entry.shown false) =
    (d.get? m).map (Entry.shown false)) : d'.kind? l = d.kind? m := by
  have hkind : ∀ x : Option Entry, (x.map Entry.node).map Node.kind =
      (x.map (Entry.shown false)).map fun e => e.node.kind := by
    rintro (_ | e)
    · rfl
    · exact congrArg some e.node.kind_shown.symm
  rw [kind?, kind?, node?, node?, hkind, hkind, h]

theorem kind?_eq_none_iff : d.kind? l = none ↔ d.node? l = none := by
  rw [kind?, Option.map_eq_none_iff]

theorem ne_symlink_of_kind? (h : d.kind? l ≠ some .symlink) (old : Path) :
    d.node? l ≠ some (.symlink old) := by
  intro hold
  rw [kind?, hold] at h
  exact h rfl

theorem kind?_eq_symlink_iff : d.kind? l = some .symlink ↔ ∃ old, d.node? l = some (.symlink old) := by
  rw [kind?, Option.map_eq_some_iff]
  constructor
  · rintro ⟨node, hnode, hkind⟩
    cases node with
    | symlink old => exact ⟨old, hnode⟩
    | directory => cases hkind
    | file => cases hkind
  · rintro ⟨old, hold⟩
    exact ⟨_, hold, rfl⟩

theorem kind?_of_get? {e : Entry} (h : d.get? l = some e) : d.kind? l = some e.node.kind := by
  rw [kind?, node?_of_get? h, Option.map_some]

/-! ## Bits -/

section Mode

variable {e : Entry} {mode : Mode}

theorem handsDown_directoryMode (d : Disk) (dir : Location) :
    HandsDown (d.directoryMode dir Tree.directoryMode) := by
  have hmask : directoryModeMask &&& inheritedBit = 0 := by decide
  unfold HandsDown directoryMode
  rw [Nat.and_or_distrib_right, Nat.and_assoc, hmask, Nat.and_zero, Nat.zero_or, Nat.and_assoc,
    Nat.and_self]

/-- The bits of a new directory in one that hands them down. -/
theorem directoryMode_of_handsDown (h : HandsDown mode) (hget : d.get? l = some e)
    (hmode : e.mode = mode) : d.directoryMode l Tree.directoryMode = mode := by
  unfold directoryMode
  rw [hget, Option.map_some, Option.getD_some, hmode, h]

/-- The bits of the copy of a directory in one with the same bits. -/
theorem directoryMode_copy (h : HandsDown mode) (hget : d.get? l = some e) (hmode : e.mode = mode) :
    d.directoryMode l mode = mode := by
  have hmask : inheritedBit &&& directoryModeMask = 0 := by decide
  have hkeep : mode &&& directoryModeMask = Tree.directoryMode &&& directoryModeMask := by
    rw [← show _ = mode from h, Nat.and_or_distrib_right, Nat.and_assoc, Nat.and_self,
      Nat.and_assoc, hmask, Nat.and_zero, Nat.or_zero]
  rw [← directoryMode_of_handsDown h hget hmode]
  unfold directoryMode
  rw [hget, Option.map_some, Option.getD_some, hmode, h, hkeep, h]

end Mode

/-! ## Times -/

/-- The entry at the location, if there is one, was modified at the time. -/
def HasTime (d : Disk) (t : Time) (l : Location) : Prop := ∀ e, d.get? l = some e → e.modified = t

theorem HasTime.setTimesAt (h : d.HasTime t l) (m : Location) : (d.setTimesAt m t).HasTime t l := by
  intro e he
  rw [Disk.setTimesAt, get?_update] at he
  split at he
  · obtain ⟨e', -, rfl⟩ := Option.map_eq_some_iff.1 he
    rfl
  · exact h e he

theorem hasTime_setTimesAt (d : Disk) (l : Location) (t : Time) :
    (d.setTimesAt l t).HasTime t l := by
  intro e he
  rw [Disk.setTimesAt, get?_update, if_pos rfl] at he
  obtain ⟨e', -, rfl⟩ := Option.map_eq_some_iff.1 he
  rfl

/-! ## Trees that match -/

/-- Below the two locations are the same trees, and all that are no links in them were modified at
the time. -/
def Matches (d : Disk) (t : Time) (left right : Location) : Prop :=
  ∀ more, Option.Rel (Entry.Matches t) (d.get? (left ++ more)) (d.get? (right ++ more))

/-- Below the two locations are the same trees, but for times. -/
def Parallel (d : Disk) (left right : Location) : Prop :=
  ∀ more, (d.get? (right ++ more)).map (Entry.shown false) =
    (d.get? (left ++ more)).map (Entry.shown false)

theorem Parallel.matches_of_times {left right : Location} (same : d.Parallel left right)
    (times : ∀ m kind, kind ≠ .symlink → d.kind? (left ++ m) = some kind →
      d.HasTime t (left ++ m) ∧ d.HasTime t (right ++ m)) : d.Matches t left right := by
  intro m
  have hsame := same m
  cases hl : d.get? (left ++ m) with
  | none =>
    rw [hl, Option.map_none, Option.map_eq_none_iff] at hsame
    rw [hsame]
    exact .none
  | some a =>
    rw [hl, Option.map_some, Option.map_eq_some_iff] at hsame
    obtain ⟨b, hr, hshown⟩ := hsame
    rw [hr]
    refine .some ⟨(Entry.node_shown hshown).symm, (Entry.mode_shown hshown).symm, fun hkind => ?_⟩
    obtain ⟨hleft, hright⟩ := times m _ hkind (kind?_of_get? hl)
    exact ⟨hleft a hl, hright b hr⟩

/-! ## What is in a directory -/

/-- These are the entries of a directory, each once. -/
structure Lists (d : Disk) (l : Location) (names : List (Name × Kind)) : Prop where
  distinct : (names.map Prod.fst).Nodup
  mem_iff : ∀ n kind, (n, kind) ∈ names ↔ (d.node? (l ++ [n])).map Node.kind = some kind

theorem IsTree.lists (t : d.IsTree) (l : Location) : d.Lists l (d.names l) where
  distinct := by
    have hnames : (d.names l).map Prod.fst = (d.entries.map Prod.fst).filterMap (nameIn? l) := by
      unfold names
      rw [List.map_filterMap, List.filterMap_map]
      refine List.filterMap_congr fun x _ => ?_
      rw [Option.map_map, Function.comp_apply]
      exact Option.map_id'
    rw [hnames]
    refine t.distinct.filterMap fun a b n ha hb => ?_
    rw [Option.mem_def, nameIn?_eq_some_iff] at ha hb
    rw [ha, hb]
  mem_iff n kind := by
    rw [mem_names, Option.map_eq_some_iff]
    constructor
    · rintro ⟨e, hmem, rfl⟩
      exact ⟨e.node, node?_of_get? (t.get?_of_mem hmem), rfl⟩
    · rintro ⟨node, hnode, rfl⟩
      obtain ⟨e, he, rfl⟩ := node?_eq_some_iff.1 hnode
      exact ⟨e, mem_of_get? he, rfl⟩

theorem Lists.perm {names names' : List (Name × Kind)} (h : d.Lists l names)
    (perm : names'.Perm names) : d.Lists l names' :=
  ⟨(perm.map Prod.fst).nodup_iff.2 h.distinct, fun n kind => perm.mem_iff.trans (h.mem_iff n kind)⟩

/-- In two directories with the same nodes there are the same entries. -/
theorem Lists.congr {names : List (Name × Kind)} (h : d.Lists l names)
    (same : ∀ n, d.node? (l ++ [n]) = d'.node? (m ++ [n])) : d'.Lists m names :=
  ⟨h.distinct, fun n kind => by rw [h.mem_iff, same]⟩

end Disk

end TwinTrees
