import TwinTrees.Proofs.Disk.Directory

/-!
# Slashes before a path

More slashes at the start of an absolute path change nothing of what it names (`Disk.target_pad`),
but they make it longer. So a path of any length can be found that names a given directory.
-/

namespace TwinTrees

/-- The path with so many slashes before it. -/
def Path.pad (n : Nat) (p : Path) : Path := ⟨String.ofList (List.replicate n '/' ++ p.text.toList)⟩

namespace Path

variable {n : Nat} {p q : Path}

theorem toList_pad : (p.pad n).text.toList = List.replicate n '/' ++ p.text.toList :=
  String.toList_ofList

theorem byteLength_pad :
    Text.byteLength (p.pad n).text.toList = n + Text.byteLength p.text.toList := by
  rw [toList_pad]
  induction n with
  | zero => simp
  | succ n ih =>
    rw [List.replicate_succ, List.cons_append, Text.byteLength_cons, ih]
    have hslash : ('/' : Char).utf8Size = 1 := by decide
    omega

theorem steps_pad : (p.pad n).steps = p.steps := by
  unfold steps
  rw [toList_pad]
  induction n with
  | zero => rfl
  | succ n ih =>
    rw [List.replicate_succ, List.cons_append, Text.splitAll, if_pos rfl, List.filterMap_cons, ih]
    simp [Step.of?]

theorem getLast?_pad (hp : p.text.toList ≠ []) :
    (p.pad n).text.toList.getLast? = p.text.toList.getLast? := by
  rw [toList_pad, List.getLast?_append, List.getLast?_eq_some_getLast hp]
  rfl

theorem isEmpty_pad (hp : p.text.toList ≠ []) : (p.pad n).text.isEmpty = false := by
  rw [Bool.eq_false_iff]
  intro h
  have hnil : (p.pad n).text.toList = [] := by rw [String.isEmpty_iff.1 h]; rfl
  rw [toList_pad] at hnil
  exact hp (List.append_eq_nil_iff.1 hnil).2

theorem hasNul_pad : (p.pad n).hasNul = p.hasNul := by
  simp [hasNul, toList_pad]

theorem isAbsolute_pad (hp : p.isAbsolute = true) : (p.pad n).isAbsolute = true := by
  obtain ⟨body, hbody⟩ := isAbsolute_eq_true_iff.1 hp
  rw [isAbsolute_eq_true_iff, toList_pad, hbody]
  cases n with
  | zero => exact ⟨body, rfl⟩
  | succ n => exact ⟨List.replicate n '/' ++ '/' :: body, by rw [List.replicate_succ]; rfl⟩

theorem pad_join (hp : p.text.toList ≠ []) (hq : q.isAbsolute = false) :
    (p.pad n).join q = (p.join q).pad n := by
  unfold join
  rw [hq, if_neg Bool.false_ne_true, if_neg Bool.false_ne_true, getLast?_pad hp]
  split <;> simp [pad, String.append_assoc]

end Path

namespace Disk

variable {d : Disk} {n : Nat} {p : Path} {last : LastLink}

/-- Slashes before a path make no difference, unless it becomes too long. -/
theorem target_pad (absolute : p.isAbsolute = true)
    (short : n + Text.byteLength p.text.toList < pathLimit) :
    d.target last (p.pad n) = d.target last p := by
  have hp : p.text.toList ≠ [] := by
    obtain ⟨body, hbody⟩ := Path.isAbsolute_eq_true_iff.1 absolute
    simp [hbody]
  have hempty : p.text.isEmpty = false := by simpa [Bool.eq_false_iff] using hp
  have hslash : (p.pad n).endsInSlash = p.endsInSlash := by
    rw [Path.endsInSlash, Path.getLast?_pad hp, Path.endsInSlash]
  have hlong : ¬ pathLimit ≤ Text.byteLength (p.pad n).text.toList := by
    rw [Path.byteLength_pad]
    omega
  have hshort : ¬ pathLimit ≤ Text.byteLength p.text.toList := by omega
  rw [target_eq, target_eq, Path.hasNul_pad, Path.isEmpty_pad hp, hempty, if_neg hlong,
    if_neg hshort, hslash, Path.steps_pad, Path.startFrom_of_absolute absolute,
    Path.startFrom_of_absolute (Path.isAbsolute_pad absolute)]

section

variable (absolute : p.isAbsolute = true) (short : n + Text.byteLength p.text.toList < pathLimit)
include absolute short

theorem makeDirectory_pad {now : Time} {mode : Mode} :
    d.makeDirectory now (p.pad n) mode = d.makeDirectory now p mode := by
  unfold makeDirectory
  rw [target_pad absolute short]

theorem find_pad : d.find true (p.pad n) = d.find true p := by
  unfold find
  rw [Bool.true_or, Bool.true_or, target_pad absolute short]

theorem isDirectory_pad : d.isDirectory (p.pad n) = d.isDirectory p := by
  unfold isDirectory
  rw [find_pad absolute short]

theorem list_pad : d.list (p.pad n) = d.list p := by
  unfold list
  rw [find_pad absolute short]

end

end Disk

end TwinTrees
