import Mathlib.Data.List.Infix
import Mathlib.Data.List.Nodup
import TwinTrees.Disk.Request
import TwinTrees.Proofs.Path.Steps

/-!
# Disks are trees

`Disk.IsTree` says what every disk is that requests have made: no location is listed twice, the root
is a directory, and every other entry has a name and is in a directory. What an entry is, apart from
its bits and its times, is its node; `Disk.node?` reads it, and the equations for it say what each
change of a disk does to all locations at once.
-/

namespace TwinTrees

namespace Disk

variable {d : Disk} {l m dir : Location} {n : Name} {now : Time}

/-- What is at a location. -/
def node? (d : Disk) (l : Location) : Option Node := (d.get? l).map Entry.node

/-- There is a directory at the location. -/
def IsDir (d : Disk) (l : Location) : Prop := d.node? l = some .directory

instance : Decidable (d.IsDir l) := inferInstanceAs (Decidable (_ = _))

theorem node?_eq_some_iff {node : Node} :
    d.node? l = some node ↔ ∃ e, d.get? l = some e ∧ e.node = node := by
  rw [node?, Option.map_eq_some_iff]

theorem node?_eq_none_iff : d.node? l = none ↔ d.get? l = none := by
  rw [node?, Option.map_eq_none_iff]

theorem node?_of_get? {e : Entry} (h : d.get? l = some e) : d.node? l = some e.node := by
  rw [node?, h, Option.map_some]

theorem node?_ne_none_of_eq {node : Node} (h : d.node? l = some node) : d.node? l ≠ none :=
  ne_of_eq_of_ne h (Option.some_ne_none node)

theorem isDir_iff : d.IsDir l ↔ ∃ e, d.get? l = some e ∧ e.node = .directory := node?_eq_some_iff

theorem isDir_of_get? {e : Entry} (h : d.get? l = some e) (hd : e.node = .directory) :
    d.IsDir l := isDir_iff.2 ⟨e, h, hd⟩

theorem IsDir.ne_symlink (h : d.IsDir l) (target : Path) : d.node? l ≠ some (.symlink target) :=
  ne_of_eq_of_ne h nofun

theorem not_isDir_of_free (free : d.node? l = none) : ¬ d.IsDir l :=
  ne_of_eq_of_ne free nofun

theorem kind_eq_directory_iff {node : Node} : node.kind = .directory ↔ node = .directory := by
  cases node <;> simp [Node.kind]

/-- Directories that are made in each other have the same bits. -/
theorem directoryMode_of_directoryMode {u : Disk} {dir : Location} {mode : Mode} {e : Entry}
    (h : d.get? l = some e) (hmode : e.mode = u.directoryMode dir mode) :
    d.directoryMode l mode = u.directoryMode dir mode := by
  have hmask : directoryModeMask &&& inheritedBit = 0 := by decide
  have hkeep : ∀ bits : Mode, ((mode &&& directoryModeMask) ||| (bits &&& inheritedBit)) &&&
      inheritedBit = bits &&& inheritedBit := by
    intro bits
    rw [Nat.and_or_distrib_right, Nat.and_assoc, hmask, Nat.and_zero, Nat.zero_or, Nat.and_assoc,
      Nat.and_self]
  unfold directoryMode at hmode ⊢
  rw [h, Option.map_some, Option.getD_some, hmode, hkeep]

/-! ## What changes do to nodes -/

theorem get?_addEntry (d : Disk) (now : Time) (dir : Location) (n : Name) (node : Node)
    (mode : Mode) (l : Location) :
    (d.addEntry now dir n node mode).get? l =
      if l = dir ++ [n] then some ⟨node, mode, now, now⟩
      else if l = dir then (d.get? l).map fun e => { e with modified := now } else d.get? l := by
  rw [addEntry, get?_touch, get?_put]
  by_cases hl : l = dir
  · subst hl; simp
  · rw [if_neg hl, if_neg hl]

theorem get?_removeEntry (d : Disk) (now : Time) (dir : Location) (n : Name) (l : Location) :
    (d.removeEntry now dir n).get? l =
      if l = dir ++ [n] then none
      else if l = dir then (d.get? l).map fun e => { e with modified := now } else d.get? l := by
  rw [removeEntry, get?_touch, get?_erase]
  by_cases hl : l = dir
  · subst hl; simp
  · rw [if_neg hl, if_neg hl]

theorem get?_eraseBelow (d : Disk) (l m : Location) :
    (d.eraseBelow l).get? m = if l <+: m ∧ m ≠ l then none else d.get? m := by
  unfold get? eraseBelow
  simp only
  split
  · next h =>
    rw [Option.map_eq_none_iff, List.find?_eq_none]
    intro x hx hm
    obtain rfl : x.1 = m := by simpa using hm
    have := (List.mem_filter.1 hx).2
    rw [List.isPrefixOf_iff_prefix.2 h.1] at this
    simp [h.2] at this
  · next h =>
    rw [List.find?_filter]
    congr 2
    funext x
    by_cases hx : x.1 = m
    · subst hx
      by_cases hl : x.1 = l
      · simp [hl]
      · have hp : l.isPrefixOf x.1 = false := by
          rw [Bool.eq_false_iff, ne_eq, List.isPrefixOf_iff_prefix]
          exact fun hp => h ⟨hp, hl⟩
        simp [hp]
    · simp [hx]

theorem node?_update {f : Entry → Entry} (h : ∀ e, d.get? l = some e → (f e).node = e.node) :
    (d.update l f).node? m = d.node? m := by
  unfold node?
  rw [get?_update]
  split
  · next hm =>
    subst hm
    cases hd : d.get? m with
    | none => rfl
    | some e => simp [h e hd]
  · rfl

theorem node?_touch : (d.touch l now).node? m = d.node? m := node?_update fun _ _ => rfl

theorem node?_setTimesAt : (d.setTimesAt l now).node? m = d.node? m := node?_update fun _ _ => rfl

theorem node?_addEntry {node : Node} {mode : Mode} :
    (d.addEntry now dir n node mode).node? l =
      if l = dir ++ [n] then some node else d.node? l := by
  rw [addEntry, node?_touch, node?, get?_put]
  split <;> rfl

theorem node?_removeEntry :
    (d.removeEntry now dir n).node? l = if l = dir ++ [n] then none else d.node? l := by
  rw [removeEntry, node?_touch, node?, get?_erase]
  split <;> rfl

theorem node?_eraseBelow :
    (d.eraseBelow l).node? m = if l <+: m ∧ m ≠ l then none else d.node? m := by
  rw [node?, get?_eraseBelow]
  split <;> rfl

theorem mem_names {kind : Kind} :
    (n, kind) ∈ d.names dir ↔ ∃ e, (dir ++ [n], e) ∈ d.entries ∧ e.node.kind = kind := by
  unfold names
  rw [List.mem_filterMap]
  constructor
  · rintro ⟨⟨l, e⟩, hmem, hx⟩
    obtain ⟨name, hname, hpair⟩ := Option.map_eq_some_iff.1 hx
    cases hpair
    rw [nameIn?_eq_some_iff] at hname
    subst hname
    exact ⟨e, hmem, rfl⟩
  · rintro ⟨e, hmem, rfl⟩
    exact ⟨_, hmem, by rw [nameIn?_eq_some_iff.2 rfl]; rfl⟩

/-! ## Trees -/

/-- What all disks are that requests make (see the module docstring). -/
structure IsTree (d : Disk) : Prop where
  distinct : (d.entries.map Prod.fst).Nodup
  root : d.IsDir []
  parent : ∀ {l n}, d.node? (l ++ [n]) ≠ none → d.IsDir l
  named : ∀ {l n}, d.node? (l ++ [n]) ≠ none → IsName n

theorem mem_of_get? {e : Entry} (h : d.get? l = some e) : (l, e) ∈ d.entries := by
  obtain ⟨x, hx, rfl⟩ := Option.map_eq_some_iff.1 h
  have hl : x.1 = l := by simpa using List.find?_some hx
  exact hl ▸ List.mem_of_find?_eq_some hx

theorem get?_ne_none_of_mem {e : Entry} (h : (l, e) ∈ d.entries) : d.get? l ≠ none := by
  rw [get?, ne_eq, Option.map_eq_none_iff, List.find?_eq_none]
  exact fun hall => hall _ h (by simp)

/-- A name is listed once. -/
theorem nodup_names (h : (d.entries.map Prod.fst).Nodup) : ((d.names l).map Prod.fst).Nodup := by
  have hnames : (d.names l).map Prod.fst = (d.entries.map Prod.fst).filterMap (nameIn? l) := by
    unfold names
    rw [List.map_filterMap, List.filterMap_map]
    congr 1
    funext x
    rw [Option.map_map]
    exact Option.map_id'
  rw [hnames]
  refine h.filterMap fun m m' n hm hm' => ?_
  rw [Option.mem_def, nameIn?_eq_some_iff] at hm hm'
  rw [hm, hm']

theorem names_eq_nil_iff : d.names l = [] ↔ ∀ n, d.node? (l ++ [n]) = none := by
  rw [List.eq_nil_iff_forall_not_mem]
  constructor
  · intro h n
    rw [node?_eq_none_iff]
    cases hd : d.get? (l ++ [n]) with
    | none => rfl
    | some e => exact absurd (mem_names.2 ⟨e, mem_of_get? hd, rfl⟩) (h (n, _))
  · rintro h ⟨n, kind⟩ hmem
    obtain ⟨e, he, -⟩ := mem_names.1 hmem
    exact get?_ne_none_of_mem he (node?_eq_none_iff.1 (h n))

namespace IsTree

theorem get?_of_mem (t : d.IsTree) {e : Entry} (h : (l, e) ∈ d.entries) : d.get? l = some e := by
  cases hd : d.get? l with
  | none => exact absurd hd (get?_ne_none_of_mem h)
  | some e' =>
    have heq := List.inj_on_of_nodup_map t.distinct (mem_of_get? hd) h rfl
    rw [(Prod.mk.inj heq).2]

/-- A disk is a tree if each of its entries is in a directory and has a name. -/
theorem of_entries (distinct : (d.entries.map Prod.fst).Nodup) (root : d.IsDir [])
    (entries : ∀ x ∈ d.entries, x.1 ≠ [] →
      d.IsDir x.1.dropLast ∧ ∀ n ∈ x.1.getLast?, IsName n) : d.IsTree := by
  have h : ∀ {l n}, d.node? (l ++ [n]) ≠ none → d.IsDir l ∧ IsName n := by
    intro l n hnode
    obtain ⟨e, he⟩ := Option.ne_none_iff_exists'.1 fun hnone => hnode (node?_eq_none_iff.2 hnone)
    obtain ⟨hdir, hname⟩ := entries _ (mem_of_get? he) (by simp)
    rw [List.dropLast_concat] at hdir
    exact ⟨hdir, hname n (by rw [List.getLast?_concat]; rfl)⟩
  exact ⟨distinct, root, fun hnode => (h hnode).1, fun hnode => (h hnode).2⟩

theorem empty (now : Time) : (Disk.empty now).IsTree where
  distinct := List.nodup_cons.2 ⟨List.not_mem_nil, List.nodup_nil⟩
  root := rfl
  parent {l n} h := by simp [node?, get?, Disk.empty] at h
  named {l n} h := by simp [node?, get?, Disk.empty] at h

/-- Whatever is above an entry is a directory. -/
theorem isDir_of_append (t : d.IsTree) {more : Location} (h : d.node? (l ++ more) ≠ none)
    (hmore : more ≠ []) : d.IsDir l := by
  induction more using List.reverseRecOn with
  | nil => exact absurd rfl hmore
  | append_singleton more n ih =>
    have hdir := t.parent (l := l ++ more) (n := n) (by rwa [List.append_assoc])
    cases more with
    | nil => rwa [List.append_nil] at hdir
    | cons a more => exact ih (node?_ne_none_of_eq hdir) (List.cons_ne_nil _ _)

theorem isDir_dropLast (t : d.IsTree) (isDir : d.IsDir l) : d.IsDir l.dropLast := by
  obtain rfl | ⟨above, n, rfl⟩ := l.eq_nil_or_concat'
  · exact isDir
  · rw [List.dropLast_concat]
    exact t.parent (node?_ne_none_of_eq isDir)

theorem isDir_of_prefix (t : d.IsTree) (h : l <+: m) (hne : l ≠ m) (hm : d.node? m ≠ none) :
    d.IsDir l := by
  obtain ⟨more, rfl⟩ := h
  exact t.isDir_of_append hm (by rintro rfl; simp at hne)

/-- Whatever is above an entry is there. -/
theorem node?_ne_none_of_append (t : d.IsTree) {more : Location} (h : d.node? (l ++ more) ≠ none) :
    d.node? l ≠ none := by
  by_cases hmore : more = []
  · rwa [hmore, List.append_nil] at h
  · exact node?_ne_none_of_eq (t.isDir_of_append h hmore)

/-- There is nothing below what is no directory. -/
theorem node?_eq_none_of_prefix (t : d.IsTree) (h : l <+: m) (hne : l ≠ m) (hl : ¬ d.IsDir l) :
    d.node? m = none := by
  by_contra hm
  exact hl (t.isDir_of_prefix h hne hm)

/-- Nothing is below a directory in which nothing is. -/
theorem node?_eq_none_of_names (t : d.IsTree) (empty : d.names l = []) (h : l <+: m) (hne : l ≠ m) :
    d.node? m = none := by
  obtain ⟨more, rfl⟩ := h
  cases more with
  | nil => exact absurd (List.append_nil l).symm hne
  | cons n more =>
    have hn := names_eq_nil_iff.1 empty n
    rw [List.append_cons]
    by_cases hmore : more = []
    · rw [hmore, List.append_nil]
      exact hn
    · refine t.node?_eq_none_of_prefix (List.prefix_append _ _) ?_ (not_isDir_of_free hn)
      exact fun heq => hmore (by simpa using heq)

theorem isName_of_mem_names (t : d.IsTree) {kind : Kind} (h : (n, kind) ∈ d.names l) :
    IsName n := by
  obtain ⟨e, hmem, -⟩ := mem_names.1 h
  exact t.named (l := l) (by rw [ne_eq, node?_eq_none_iff]; exact get?_ne_none_of_mem hmem)

/-! ## Changes that keep the tree -/

theorem keys_put (t : d.IsTree) (e : Entry) : ((d.put l e).entries.map Prod.fst).Nodup := by
  rw [put, List.map_cons, List.nodup_cons]
  refine ⟨fun h => ?_, (t.distinct.sublist ((List.filter_sublist).map Prod.fst))⟩
  obtain ⟨x, hx, hl⟩ := List.mem_map.1 h
  simpa [hl] using (List.mem_filter.1 hx).2

theorem keys_update (d : Disk) (l : Location) (f : Entry → Entry) :
    (d.update l f).entries.map Prod.fst = d.entries.map Prod.fst := by
  rw [update, List.map_map]
  refine List.map_congr_left fun x _ => ?_
  rw [Function.comp_apply]
  split
  · next h => exact h.symm
  · rfl

theorem update (t : d.IsTree) {f : Entry → Entry}
    (h : ∀ e, d.get? l = some e → (f e).node.kind = e.node.kind) : (d.update l f).IsTree := by
  have hdir : ∀ m, (d.update l f).IsDir m ↔ d.IsDir m := by
    intro m
    rw [isDir_iff, isDir_iff, get?_update]
    split
    · next hm =>
      subst hm
      cases hd : d.get? m with
      | none => simp
      | some e =>
        have := h e hd
        simp only [Option.map_some, Option.some.injEq, exists_eq_left']
        rw [← kind_eq_directory_iff, this, kind_eq_directory_iff]
    · rfl
  have hnone : ∀ m, (d.update l f).node? m = none ↔ d.node? m = none := by
    intro m
    rw [node?_eq_none_iff, node?_eq_none_iff, get?_update]
    split <;> simp
  exact {
    distinct := by rw [keys_update]; exact t.distinct
    root := (hdir []).2 t.root
    parent := fun hm => (hdir _).2 (t.parent fun h => hm ((hnone _).2 h))
    named := fun hm => t.named fun h => hm ((hnone _).2 h) }

theorem update_of_node (t : d.IsTree) {f : Entry → Entry} (h : ∀ e, (f e).node = e.node) :
    (d.update l f).IsTree := t.update fun e _ => by rw [h]

theorem addEntry (t : d.IsTree) {node : Node} {mode : Mode} (hdir : d.IsDir dir)
    (hfree : d.node? (dir ++ [n]) = none) (hn : IsName n) :
    (d.addEntry now dir n node mode).IsTree where
  distinct := by rw [Disk.addEntry, touch, keys_update]; exact t.keys_put _
  root := by
    rw [IsDir, node?_addEntry, if_neg (by simp)]
    exact t.root
  parent {l m} h := by
    rw [node?_addEntry] at h
    have hne : d.IsDir l → l ≠ dir ++ [n] := by
      rintro hl rfl
      rw [IsDir, hfree] at hl
      cases hl
    split at h
    · next heq =>
      obtain ⟨rfl, -⟩ := List.append_inj' heq rfl
      rw [IsDir, node?_addEntry, if_neg (hne hdir)]
      exact hdir
    · have hl := t.parent h
      rw [IsDir, node?_addEntry, if_neg (hne hl)]
      exact hl
  named {l m} h := by
    rw [node?_addEntry] at h
    split at h
    · next heq =>
      obtain ⟨-, heq⟩ := List.append_inj' heq rfl
      cases heq
      exact hn
    · exact t.named h

/-- The number of the next file matters to nothing else. -/
theorem withNextId (t : d.IsTree) (k : Nat) : { d with nextId := k }.IsTree :=
  ⟨t.distinct, t.root, t.parent, t.named⟩

theorem addFile (t : d.IsTree) {mode : Mode} (hdir : d.IsDir dir)
    (hfree : d.node? (dir ++ [n]) = none) (hn : IsName n) : (d.addFile now dir n mode).IsTree :=
  (t.addEntry hdir hfree hn).withNextId _

theorem removeEntry (t : d.IsTree) (h : ∀ m, d.node? (dir ++ [n] ++ [m]) = none) :
    (d.removeEntry now dir n).IsTree where
  distinct := by
    rw [Disk.removeEntry, touch, keys_update]
    exact t.distinct.sublist ((List.filter_sublist).map Prod.fst)
  root := by
    rw [IsDir, node?_removeEntry, if_neg (by simp)]
    exact t.root
  parent {l m} hm := by
    rw [node?_removeEntry] at hm
    split at hm
    · exact absurd rfl hm
    · rw [IsDir, node?_removeEntry, if_neg]
      · exact t.parent hm
      · rintro rfl
        exact hm (h m)
  named {l m} hm := by
    rw [node?_removeEntry] at hm
    split at hm
    · exact absurd rfl hm
    · exact t.named hm

theorem eraseBelow (t : d.IsTree) (l : Location) : (d.eraseBelow l).IsTree where
  distinct := t.distinct.sublist ((List.filter_sublist).map Prod.fst)
  root := by
    rw [IsDir, node?_eraseBelow, if_neg]
    · exact t.root
    · rintro ⟨h, hne⟩
      exact hne (List.prefix_nil.1 h).symm
  parent {m n} hm := by
    rw [node?_eraseBelow] at hm
    split at hm
    · exact absurd rfl hm
    · next hnot =>
      rw [IsDir, node?_eraseBelow, if_neg]
      · exact t.parent hm
      · rintro ⟨h, hne⟩
        refine hnot ⟨h.trans (List.prefix_append m [n]), ?_⟩
        rintro rfl
        exact absurd h.length_le (by simp)
  named {m n} hm := by
    rw [node?_eraseBelow] at hm
    split at hm
    · exact absurd rfl hm
    · exact t.named hm

theorem touch (t : d.IsTree) : (d.touch l now).IsTree := t.update_of_node fun _ => rfl

theorem clear (t : d.IsTree) (l : Location) : (d.clear now l).IsTree := by
  unfold Disk.clear
  split
  · exact t
  · exact (t.eraseBelow l).touch

end IsTree

end Disk

end TwinTrees
