import Mathlib.Data.Char
import TwinTrees.Text.Order

/-!
# Dictionary order is an order

If the members of lists are in a linear order, then so are the lists in dictionary order. Each law
goes down both lists to the first place where they differ.
-/

namespace TwinTrees.Text

section Dictionary

variable {α : Type} [DecidableEq α] {le : α → α → Bool} {x y : α} {r s t : List α}

theorem dictionaryLe_cons_iff : dictionaryLe le (x :: s) (y :: t) = true ↔
    x ≠ y ∧ le x y = true ∨ x = y ∧ dictionaryLe le s t = true := by
  rw [dictionaryLe]
  split
  · next h => simp [h]
  · next h => simp [h]

theorem dictionaryLe_total (total : ∀ x y, le x y = true ∨ le y x = true) (s t : List α) :
    dictionaryLe le s t = true ∨ dictionaryLe le t s = true := by
  induction s generalizing t with
  | nil => exact .inl rfl
  | cons x s ih =>
    cases t with
    | nil => exact .inr rfl
    | cons y t =>
      rw [dictionaryLe_cons_iff, dictionaryLe_cons_iff]
      by_cases h : x = y
      · exact (ih t).imp (fun hst => .inr ⟨h, hst⟩) fun hts => .inr ⟨h.symm, hts⟩
      · exact (total x y).imp (fun hxy => .inl ⟨h, hxy⟩) fun hyx => .inl ⟨Ne.symm h, hyx⟩

theorem dictionaryLe_antisymm (antisymm : ∀ x y, le x y = true → le y x = true → x = y)
    (hst : dictionaryLe le s t = true) (hts : dictionaryLe le t s = true) : s = t := by
  induction s generalizing t with
  | nil =>
    cases t with
    | nil => rfl
    | cons y t => cases hts
  | cons x s ih =>
    cases t with
    | nil => cases hst
    | cons y t =>
      rw [dictionaryLe_cons_iff] at hst hts
      obtain ⟨hne, hxy⟩ | ⟨rfl, hst⟩ := hst
      · obtain ⟨-, hyx⟩ | ⟨heq, -⟩ := hts
        · exact absurd (antisymm x y hxy hyx) hne
        · exact absurd heq.symm hne
      · obtain ⟨hne, -⟩ | ⟨-, hts⟩ := hts
        · exact absurd rfl hne
        · rw [ih hst hts]

theorem dictionaryLe_trans (antisymm : ∀ x y, le x y = true → le y x = true → x = y)
    (trans : ∀ x y z, le x y = true → le y z = true → le x z = true)
    (hrs : dictionaryLe le r s = true) (hst : dictionaryLe le s t = true) :
    dictionaryLe le r t = true := by
  induction r generalizing s t with
  | nil => rfl
  | cons x r ih =>
    cases s with
    | nil => cases hrs
    | cons y s =>
      cases t with
      | nil => cases hst
      | cons z t =>
        rw [dictionaryLe_cons_iff] at hrs hst ⊢
        obtain ⟨hne, hxy⟩ | ⟨rfl, hrs⟩ := hrs
        · obtain ⟨-, hyz⟩ | ⟨rfl, -⟩ := hst
          · -- if the first and the last were the same, then all three would be
            refine .inl ⟨?_, trans x y z hxy hyz⟩
            rintro rfl
            exact hne (antisymm x y hxy hyz)
          · exact .inl ⟨hne, hxy⟩
        · exact hst.imp_right fun h => ⟨h.1, ih hrs h.2⟩

end Dictionary

/-! ## Texts -/

variable {x y z : Char} {r s t : List Char}

theorem charLe_antisymm (hxy : decide (x ≤ y) = true) (hyx : decide (y ≤ x) = true) : x = y :=
  le_antisymm (of_decide_eq_true hxy) (of_decide_eq_true hyx)

theorem charLe_trans (hxy : decide (x ≤ y) = true) (hyz : decide (y ≤ z) = true) :
    decide (x ≤ z) = true :=
  decide_eq_true (le_trans (of_decide_eq_true hxy) (of_decide_eq_true hyz))

protected theorem le_total (s t : List Char) : Text.le s t = true ∨ Text.le t s = true :=
  dictionaryLe_total (fun x y => (le_total x y).imp decide_eq_true decide_eq_true) s t

protected theorem le_antisymm (hst : Text.le s t = true) (hts : Text.le t s = true) : s = t :=
  dictionaryLe_antisymm (fun _ _ => charLe_antisymm) hst hts

protected theorem le_trans (hrs : Text.le r s = true) (hst : Text.le s t = true) :
    Text.le r t = true :=
  dictionaryLe_trans (fun _ _ => charLe_antisymm) (fun _ _ _ => charLe_trans) hrs hst

end TwinTrees.Text
