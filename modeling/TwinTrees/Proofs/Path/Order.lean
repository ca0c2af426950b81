import TwinTrees.Discovery
import TwinTrees.Proofs.Path.Steps
import TwinTrees.Proofs.Text.Basic
import TwinTrees.Proofs.Text.Order

/-!
# The order of paths

Paths are ordered by their components, and a path that goes down from another one by names has these
names as further components (`Path.components_down`). So the order of paths is linear up to the way in
which the same components can be written, and `Path.Before` is what remains of it between paths that
have not the same ones.
-/

namespace TwinTrees

/-! ## The order of components -/

namespace Component

variable {a b c : Component}

protected theorem le_total (a b : Component) : a.le b = true ∨ b.le a = true := by
  cases a <;> cases b <;> simp [le, rank, Text.le_total]

protected theorem le_antisymm (hab : a.le b = true) (hba : b.le a = true) : a = b := by
  cases a <;> cases b <;> simp_all [le, rank]
  exact Text.le_antisymm hab hba

protected theorem le_trans (hab : a.le b = true) (hbc : b.le c = true) : a.le c = true := by
  cases a <;> cases b <;> cases c <;> simp_all [le, rank]
  exact Text.le_trans hab hbc

end Component

namespace Path

variable {p q r : Path} {n : Name} {m : Location}

/-! ## The order of paths -/

/-- The first path comes before the second one, and the second one not before the first one. -/
def Before (p q : Path) : Prop := p.le q = true ∧ q.le p = false

protected theorem le_total (p q : Path) : p.le q = true ∨ q.le p = true :=
  Text.dictionaryLe_total Component.le_total _ _

protected theorem le_trans (hpq : p.le q = true) (hqr : q.le r = true) : p.le r = true :=
  Text.dictionaryLe_trans (fun _ _ => Component.le_antisymm) (fun _ _ _ => Component.le_trans) hpq hqr

theorem before_of_le (h : p.le q = true) (hne : p.components ≠ q.components) : p.Before q :=
  ⟨h, Bool.eq_false_iff.2 fun hqp =>
    hne (Text.dictionaryLe_antisymm (fun _ _ => Component.le_antisymm) h hqp)⟩

theorem Before.not_before (h : p.Before q) : ¬ q.Before p := fun h' => by
  have hle := h'.1
  rw [h.2] at hle
  cases hle

/-! ## Components -/

/-- The component that no piece of the text stands for: the root, or a `.` at the start. -/
def lead (p : Path) : List Component :=
  if p.isAbsolute then [.root]
  else if (Text.splitAll '/' p.text.toList).head? = some ['.'] then [.here] else []

/-- The components of a path are the lead and those of the pieces of the text. -/
theorem components_eq (p : Path) :
    p.components = p.lead ++ (Text.splitAll '/' p.text.toList).filterMap componentOf := by
  have hnone : componentOf [] = none ∧ componentOf ['.'] = none := ⟨rfl, rfl⟩
  have hcomponents : ∀ pieces : List (List Char),
      (pieces.map fun s => (s, componentOf s)).filterMap Prod.snd = pieces.filterMap componentOf := by
    intro pieces
    rw [List.filterMap_map]
    rfl
  unfold components lead
  cases habs : p.isAbsolute with
  | true =>
    obtain ⟨body, hbody⟩ := isAbsolute_eq_true_iff.1 habs
    have hsplit : Text.splitAll '/' ('/' :: body) = [] :: Text.splitAll '/' body := if_pos rfl
    rw [if_pos rfl, if_pos rfl, segments, hbody, hsplit, List.filterMap_cons, hnone.1]
    exact congrArg _ (hcomponents _)
  | false =>
    rw [if_neg Bool.false_ne_true, if_neg Bool.false_ne_true, List.nil_append, segments]
    split
    · next body hbody =>
      rw [isAbsolute, hbody] at habs
      cases habs
    · cases Text.splitAll '/' p.text.toList with
      | nil => rfl
      | cons first rest =>
        simp only
        rw [List.filterMap_cons, List.filterMap_cons, hcomponents]
        by_cases hdot : first = ['.']
        · simp only [hdot, hnone.2]
          rfl
        · simp [hdot]

theorem componentOf_isName (hn : IsName n) : componentOf n = some (.name n) := by
  have hstep := hn.step
  unfold Step.of? at hstep
  unfold componentOf
  grind

/-- A name that is joined to a path is one component more. -/
theorem components_inside (hn : IsName n) :
    (Tree.inside p n).components = p.components ++ [.name n] := by
  have hrelative := isAbsolute_name hn.noSlash
  have hpieces : (Text.splitAll '/' (Path.mk (String.ofList n)).text.toList).filterMap componentOf =
      [.name n] := by
    rw [String.toList_ofList, Text.splitAll_of_not_mem hn.noSlash]
    simp [componentOf_isName hn]
  rw [components_eq, components_eq, Tree.inside]
  unfold lead
  rw [isAbsolute_join hrelative]
  have hhead : ∀ pieces : List (List Char), ∀ s : List Char,
      (Text.splitAll '/' s ++ pieces).head? = (Text.splitAll '/' s).head? := by
    intro pieces s
    cases hs : Text.splitAll '/' s with
    | nil => exact absurd hs (Text.splitAll_ne_nil _ _)
    | cons first rest => rfl
  obtain ⟨a, ha, hj⟩ | ⟨hp, hj⟩ | ⟨-, hj⟩ := join_text (p := p) hrelative
  · rw [hj, ha, Text.splitAll_append_sep, Text.splitAll_append_sep, List.filterMap_append,
      List.filterMap_append, hpieces, hhead, hhead]
    simp [Text.splitAll, componentOf]
  · have hdot : n ≠ ['.'] := fun h => by
      have hcomponent := componentOf_isName hn
      rw [h] at hcomponent
      cases hcomponent
    rw [hj, hp, hpieces, String.toList_ofList, Text.splitAll_of_not_mem hn.noSlash]
    simp [hdot, Text.splitAll, componentOf]
  · rw [hj, Text.splitAll_append_sep, List.filterMap_append, hpieces, hhead, List.append_assoc]

/-- The path that goes on from a path by names, one after the other. -/
def down (p : Path) (m : Location) : Path := m.foldl Tree.inside p

theorem components_down (hm : ∀ n ∈ m, IsName n) :
    (p.down m).components = p.components ++ m.map .name := by
  induction m generalizing p with
  | nil => exact (List.append_nil _).symm
  | cons n m ih =>
    obtain ⟨hn, hm⟩ := List.forall_mem_cons.1 hm
    rw [down, List.foldl_cons, ← down, ih hm, components_inside hn, List.append_assoc]
    rfl

/-! ## Names of test files -/

/-- The name is something, a dot and the extension of test files. -/
def IsTestName (n : Name) : Prop := ∃ stem, stem ≠ [] ∧ n = stem ++ '.' :: testExtension.toList

/-- A file is a test file by its name. -/
theorem isTestFile_iff : p.isTestFile = true ↔ ∃ n, p.fileName? = some n ∧ IsTestName n := by
  have hextension : '.' ∉ testExtension.toList.reverse := by decide
  unfold isTestFile extension?
  rw [beq_iff_eq, Option.bind_eq_some_iff]
  refine exists_congr fun n => and_congr_right fun _ => ⟨fun h => ?_, ?_⟩
  · split at h
    · cases h
    · cases h
    · next after before hne hsplit =>
      have hreverse := congrArg List.reverse (Text.splitFirst?_eq_some hsplit)
      rw [List.reverse_reverse, List.reverse_append, List.reverse_cons, Option.some.inj h,
        List.append_assoc] at hreverse
      exact ⟨before.reverse, fun hnil => hne (List.reverse_eq_nil_iff.1 hnil), hreverse⟩
  · rintro ⟨stem, hstem, rfl⟩
    obtain ⟨c, rest, hrest⟩ := List.exists_cons_of_ne_nil
      (fun h => hstem (List.reverse_eq_nil_iff.1 h) : stem.reverse ≠ [])
    rw [List.reverse_append, List.reverse_cons, List.append_assoc, List.singleton_append,
      Text.splitFirst?_append hextension, hrest]
    simp

theorem isTestFile_down {above : Location} (hm : ∀ x ∈ above ++ [n], IsName x) :
    (p.down (above ++ [n])).isTestFile = true ↔ IsTestName n := by
  have hname : (p.down (above ++ [n])).fileName? = some n := by
    rw [fileName?, components_down hm, List.map_append, ← List.append_assoc, List.map_singleton,
      List.getLast?_concat]
  rw [isTestFile_iff, hname]
  simp

end Path

end TwinTrees
