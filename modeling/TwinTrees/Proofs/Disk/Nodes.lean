import TwinTrees.Proofs.Disk.Kind
import TwinTrees.Proofs.Disk.Success
import TwinTrees.Tree.Walk

/-!
# Disks with the same nodes

Two disks have the same nodes if at each location both have the same directory, file or link
(`Disk.SameNodes`). They may differ in bits and times, and in the order in which entries are listed.
Paths then lead to the same locations, and walks visit the same entries, though not in the same
order: the lists are compared by their elements.
-/

namespace TwinTrees.Disk

variable {d d' u : Disk} {last : LastLink} {links : Nat} {slash : Bool} {cur : Location} {e : Ending}
  {steps : List Step} {p : Path} {l : Location}

/-- At each location the two disks have the same. -/
structure SameNodes (u d : Disk) : Prop where
  node : ∀ l, d.node? l = u.node? l
  workingDirectory : d.workingDirectory = u.workingDirectory

namespace SameNodes

theorem refl (d : Disk) : SameNodes d d := ⟨fun _ => rfl, rfl⟩

theorem trans (h : SameNodes u d) (h' : SameNodes d d') : SameNodes u d' :=
  ⟨fun l => (h'.node l).trans (h.node l), h'.workingDirectory.trans h.workingDirectory⟩

theorem setTimesAt (d : Disk) (l : Location) (t : Time) : SameNodes d (d.setTimesAt l t) :=
  ⟨fun _ => node?_setTimesAt, rfl⟩

/-- The order in which entries are listed does not matter. -/
theorem of_perm (tree : u.IsTree) (perm : d.entries.Perm u.entries)
    (working : d.workingDirectory = u.workingDirectory) :
    d.IsTree ∧ SameNodes u d ∧ ∀ l, d.get? l = u.get? l := by
  have distinct : (d.entries.map Prod.fst).Nodup := (perm.map _).nodup_iff.2 tree.distinct
  have hget : ∀ l, d.get? l = u.get? l := by
    intro l
    cases hu : u.get? l with
    | some e =>
      obtain ⟨e', he'⟩ := Option.ne_none_iff_exists'.1
        (get?_ne_none_of_mem (perm.mem_iff.2 (mem_of_get? hu)))
      have heq := List.inj_on_of_nodup_map distinct (mem_of_get? he') (perm.mem_iff.2 (mem_of_get? hu)) rfl
      rw [he', (Prod.mk.inj heq).2]
    | none =>
      by_contra hne
      obtain ⟨e, he⟩ := Option.ne_none_iff_exists'.1 hne
      exact get?_ne_none_of_mem (perm.mem_iff.1 (mem_of_get? he)) hu
  have hnode : ∀ l, d.node? l = u.node? l := fun l => by rw [node?, node?, hget]
  refine ⟨⟨distinct, (hnode []).trans tree.root, fun hl => ?_, fun hl => ?_⟩,
    ⟨hnode, working⟩, hget⟩
  · rw [IsDir, hnode]
    exact tree.parent (hnode _ ▸ hl)
  · exact tree.named (hnode _ ▸ hl)

/-! ## Paths -/

theorem proceed (h : SameNodes u d) : d.proceed last links slash cur e steps =
    u.proceed last links slash cur e steps := proceed_congr fun l => .inl (h.node l)

theorem target (h : SameNodes u d) (last : LastLink) (p : Path) :
    d.target last p = u.target last p := by
  rw [target_eq, target_eq, h.proceed, h.workingDirectory]

/-- The entries have the same location and the same node. -/
def SameFound (x y : Location × Entry) : Prop := x.1 = y.1 ∧ x.2.node = y.2.node

/-- What is found is at the same location and has the same node. -/
theorem find (h : SameNodes u d) (follow : Bool) (p : Path) :
    Both SameFound (d.find follow p) (u.find follow p) := by
  have hget : ∀ l, Option.Rel (fun a b : Entry => a.node = b.node) (d.get? l) (u.get? l) := by
    intro l
    have hnode := h.node l
    rw [node?, node?] at hnode
    cases hd : d.get? l <;> cases hu : u.get? l <;> rw [hd, hu] at hnode
    · exact .none
    · cases hnode
    · cases hnode
    · exact .some (Option.some.inj hnode)
  unfold Disk.find
  rw [h.target]
  cases u.target (if follow || p.endsInSlash then .follow else .keep) p with
  | error fault => exact .error fault
  | ok target =>
    cases target with
    | directory l ending =>
      simp only [bind, Except.bind]
      have hl := hget l
      cases hd : d.get? l <;> cases hu : u.get? l <;> rw [hd, hu] at hl <;> cases hl
      · exact .error _
      · next hnode => exact .ok ⟨rfl, hnode⟩
    | name dir n slash =>
      simp only [bind, Except.bind, child?]
      cases isTooLong n with
      | true => exact .error _
      | false =>
        have hl := hget (dir ++ [n])
        simp only [Bool.false_eq_true, if_false, Except.mapError]
        cases hd : d.get? (dir ++ [n]) <;> cases hu : u.get? (dir ++ [n]) <;> rw [hd, hu] at hl <;>
          cases hl
        · exact .error _
        · next hnode =>
          simp only [hnode]
          split
          · exact .error _
          · exact .ok ⟨rfl, hnode⟩

/-! ## Lists -/

/-- The lists have the same elements. -/
def SameElements {α : Type} (xs ys : List α) : Prop := ∀ x, x ∈ xs ↔ x ∈ ys

theorem list (h : SameNodes u d) (treeU : u.IsTree) (treeD : d.IsTree) (p : Path) :
    Both SameElements (d.list p) (u.list p) := by
  unfold Disk.list
  refine (h.find true p).bind ?_
  rintro ⟨l, a⟩ ⟨l', b⟩ ⟨hloc, hnode⟩
  cases hloc
  simp only at hnode
  simp only [hnode]
  split
  · refine .ok fun ⟨n, kind⟩ => ?_
    rw [(treeD.lists l).mem_iff, (treeU.lists l).mem_iff, h.node]
  · exact .error _

theorem walkContents (h : SameNodes u d) (treeU : u.IsTree) (treeD : d.IsTree) (depth : Nat)
    (p : Path) : SameElements (d.walkContents depth p) (u.walkContents depth p) := by
  induction depth generalizing p with
  | zero => exact fun _ => Iff.rfl
  | succ depth ih =>
    unfold Disk.walkContents
    have hlist := h.list treeU treeD p
    cases hd : d.list p <;> cases hu : u.list p <;> rw [hd, hu] at hlist <;> cases hlist
    · exact fun _ => Iff.rfl
    · next hnames =>
      intro x
      have hinner : ∀ y : Name × Kind, x ∈ Except.ok (Tree.inside p y.1, y.2) ::
          (if y.2 = .directory then d.walkContents depth (Tree.inside p y.1) else []) ↔
          x ∈ Except.ok (Tree.inside p y.1, y.2) ::
          (if y.2 = .directory then u.walkContents depth (Tree.inside p y.1) else []) := by
        intro y
        rw [List.mem_cons, List.mem_cons]
        split
        · rw [ih (Tree.inside p y.1) x]
        · rfl
      rw [List.mem_flatMap, List.mem_flatMap]
      exact exists_congr fun y => and_congr (hnames y) (hinner y)

theorem walkDown (h : SameNodes u d) (treeU : u.IsTree) (treeD : d.IsTree) (p : Path) :
    SameElements (d.walkDown p) (u.walkDown p) := by
  have contents := h.walkContents treeU treeD pathLimit p
  unfold Disk.walkDown
  have hlook := h.find false p
  unfold lookAt
  cases hd : d.find false p <;> cases hu : u.find false p <;> rw [hd, hu] at hlook <;> cases hlook
  · exact fun _ => Iff.rfl
  · next hsame =>
    simp only [hsame.2]
    split
    · exact fun _ => Iff.rfl
    · exact fun x => by rw [List.mem_cons, List.mem_cons, contents x]
    · have hfind := h.find true p
      cases hd : d.find true p <;> cases hu : u.find true p <;> rw [hd, hu] at hfind <;> cases hfind
      · exact fun _ => Iff.rfl
      · next hfound =>
        intro x
        simp only [hfound.2]
        rw [List.mem_cons, List.mem_cons]
        split
        · rw [contents x]
        · rfl

end SameNodes

end TwinTrees.Disk
