import TwinTrees.Text.Blank

/-!
# Placeholders in arguments

A placeholder is a dollar sign with a name: `$NAME`, `$` with one digit or one of the characters
`* # $ @ ! ? -`, or any text in braces. It is replaced by the value of the name, which is not read
again. Braces without a name, and a brace that is never closed, are dropped. A dollar sign before
anything else stays.
-/

namespace TwinTrees.Script

/-- The characters that are a name by themselves. -/
def isSpecialName (c : Char) : Bool :=
  ['*', '#', '$', '@', '!', '?', '-'].contains c || ('0' ≤ c && c ≤ '9')

/-- The characters with which a name can start. -/
def isNameStart (c : Char) : Bool :=
  ('A' ≤ c && c ≤ 'Z') || ('a' ≤ c && c ≤ 'z') || c == '_'

/-- The characters with which a name goes on. -/
def isNameChar (c : Char) : Bool :=
  isNameStart c || ('0' ≤ c && c ≤ '9')

/-- The name that a dollar sign before this text refers to, and what follows the placeholder. The
name is empty where braces are dropped. -/
def placeholder? : List Char → Option (List Char × List Char)
  | [] => none
  | '{' :: rest =>
    match Text.splitFirst? '}' rest with
    | some (name, after) => some (name, after)
    | none => some ([], rest)
  | c :: rest =>
    if isSpecialName c then some ([c], rest)
    else if isNameStart c then
      some (c :: rest.takeWhile isNameChar, rest.dropWhile isNameChar)
    else none

theorem placeholder?_of_ne {c : Char} (hc : c ≠ '{') (rest : List Char) :
    placeholder? (c :: rest) =
      if isSpecialName c then some ([c], rest)
      else if isNameStart c then
        some (c :: rest.takeWhile isNameChar, rest.dropWhile isNameChar)
      else none := by
  rw [placeholder?]
  exact hc

theorem length_lt_of_placeholder? {s name after : List Char}
    (h : placeholder? s = some (name, after)) : after.length < s.length := by
  unfold placeholder? at h
  split at h
  · simp at h
  · split at h
    · next heq =>
      simp only [Option.some.injEq, Prod.mk.injEq] at h
      rw [Text.splitFirst?_eq_some heq, ← h.2]
      simp
      omega
    · simp only [Option.some.injEq, Prod.mk.injEq] at h
      simp [← h.2]
  · split at h
    · simp only [Option.some.injEq, Prod.mk.injEq] at h
      simp [← h.2]
    · split at h
      · simp only [Option.some.injEq, Prod.mk.injEq] at h
        rw [← h.2]
        have := (List.dropWhile_suffix isNameChar (l := ‹List Char›)).length_le
        simp only [List.length_cons]
        omega
      · simp at h

/-- The value of a name; the empty name has the empty value. -/
def valueOf (value : List Char → List Char) (name : List Char) : List Char :=
  if name.isEmpty then [] else value name

/-- The text with its placeholders replaced by the values of their names. -/
def expand (value : List Char → List Char) : List Char → List Char
  | [] => []
  | c :: rest =>
    if c = '$' then
      match h : placeholder? rest with
      | some (name, after) =>
        have : after.length < rest.length := length_lt_of_placeholder? h
        valueOf value name ++ expand value after
      | none => c :: expand value rest
    else c :: expand value rest
  termination_by s => s.length

section Expand

variable (value : List Char → List Char)

theorem expand_nil : expand value [] = [] := by
  rw [expand]

theorem expand_of_ne {c : Char} (hc : c ≠ '$') (s : List Char) :
    expand value (c :: s) = c :: expand value s := by
  rw [expand, if_neg hc]

theorem expand_placeholder {s name after : List Char} (h : placeholder? s = some (name, after)) :
    expand value ('$' :: s) = valueOf value name ++ expand value after := by
  rw [expand, if_pos rfl]
  split
  · next heq =>
    obtain ⟨rfl, rfl⟩ : _ ∧ _ := by simpa using heq.symm.trans h
    rfl
  · next heq => simp [heq] at h

theorem expand_dollar {s : List Char} (h : placeholder? s = none) :
    expand value ('$' :: s) = '$' :: expand value s := by
  rw [expand, if_pos rfl]
  split
  · next heq => simp [heq] at h
  · rfl

end Expand

/-- The argument with its placeholders replaced; a name without a value has the empty value. -/
def expandString (lookup : String → Option String) (argument : String) : String :=
  String.ofList
    (expand (fun name => ((lookup (String.ofList name)).getD "").toList) argument.toList)

end TwinTrees.Script
