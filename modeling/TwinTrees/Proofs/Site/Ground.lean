import TwinTrees.Proofs.Site.Home

/-!
# The run root as the ground of tests

The tests of a run have their sites on one `Ground`: the place of the run root. A run root that is
there and empty is a ground that is ready for every test (`Ground.of_empty`).
-/

namespace TwinTrees

/-- Where a run root is. -/
structure Ground where
  path : Path
  /-- Where the path leads. -/
  home : Location
  /-- The number of links on that way. -/
  links : Nat
  /-- From wherever a link has it as its path, the run root is the same, or below. -/
  anchored : path.isAbsolute = true ∨ Descends path.steps

namespace Ground

variable {g : Ground} {d d' : Disk}

/-- The place of a test in the run root. -/
def site (g : Ground) (name : Name) (isName : IsName name) : Site where
  runRoot := g.path
  home := g.home
  links := g.links
  name
  isName
  anchored := g.anchored

/-- The location is not in the run root. -/
def Apart (g : Ground) (l : Location) : Prop := ¬ (g.home <+: l ∧ l ≠ g.home)

instance : DecidablePred g.Apart := fun _ => inferInstanceAs (Decidable (¬ (_ ∧ _)))

/-- The disk has the run root in place. -/
def Ready (g : Ground) (d : Disk) : Prop := ∀ name isName, (g.site name isName).Ready d

/-- Nothing is in the run root. -/
def Vacant (g : Ground) (d : Disk) : Prop := ∀ l, ¬ g.Apart l → d.node? l = none

theorem Ready.of_alike (h : g.Ready d) (tree : d'.IsTree) (alike : Disk.Alike false g.Apart d d') :
    g.Ready d' := fun name isName => (h name isName).of_alike tree alike

namespace Ready

variable (h : g.Ready d)
include h

theorem tree : d.IsTree := (h _ Side.lhs.isName).tree

theorem isDir : d.IsDir g.home := (h _ Side.lhs.isName).isDir

theorem isDirectory : d.isDirectory g.path = true := (h _ Side.lhs.isName).isDirectory

theorem names : d.Names g.path g.home :=
  have hready := h _ Side.lhs.isName
  have hvalid := Site.fault?_eq_none_iff.1 hready.named
  ⟨hvalid.1, g.links, hvalid.2, hready.found.wholeRoute⟩

end Ready

theorem not_apart {name : Name} {isName : IsName name} {l : Location}
    (h : (g.site name isName).Below l) : ¬ g.Apart l := h.not_apart

theorem Vacant.of_names (tree : d.IsTree) (empty : d.names g.home = []) : g.Vacant d := by
  intro l hl
  obtain ⟨hbelow, hne⟩ := not_not.1 hl
  exact tree.node?_eq_none_of_names empty hbelow hne.symm

/-- What looks the same in the run root is vacant with it. -/
theorem Vacant.of_sameTree (h : g.Vacant d) (same : Disk.SameTree d d') : g.Vacant d' := by
  intro l hl
  obtain ⟨-, h₂⟩ | ⟨h₁, -⟩ | ⟨i, j, bytes, h₁, -⟩ | ⟨target, h₁, -⟩ := same.node?_cases (l := l) trivial
  · exact h₂
  · rw [Disk.IsDir, h l hl] at h₁; cases h₁
  · rw [h l hl] at h₁; cases h₁
  · rw [h l hl] at h₁; cases h₁

section

variable {name : Name} {isName : IsName name} (vacant : g.Vacant d)
  (stays : (g.site name isName).Stays d d')
include vacant stays

/-- A test leaves nothing in an empty run root but its directory. -/
theorem Vacant.node?_of_stays {l : Location} (hl : ¬ g.Apart l)
    (off : ¬ (g.site name isName).Below l) : d'.node? l = none := by
  rw [stays.off.node? fun hnear => hnear.elim off fun hhome => hl fun hin => hin.2 hhome]
  exact vacant l hl

/-- The run root is empty again when the directory of the test is gone. -/
theorem Vacant.of_gone (gone : d'.node? (g.site name isName).root = none) : g.Vacant d' := by
  intro l hl
  by_cases hbelow : (g.site name isName).Below l
  · by_cases heq : l = (g.site name isName).root
    · rw [heq]
      exact gone
    · exact stays.tree.node?_eq_none_of_prefix hbelow (Ne.symm heq)
        (by rw [Disk.IsDir, gone]; exact fun h => by cases h)
  · exact vacant.node?_of_stays stays hl hbelow

/-- Nothing but the directory of the test can be found in the run root. -/
theorem Vacant.only_root {m : Name} (hm : m ≠ name) : d'.node? (g.home ++ [m]) = none := by
  refine vacant.node?_of_stays stays (not_not_intro ⟨List.prefix_append _ _, by simp⟩) ?_
  intro hbelow
  have heq : g.home ++ [name] = g.home ++ [m] := hbelow.eq_of_length (by simp [Site.root, site])
  simp [Ne.symm hm] at heq

end

/-- An empty directory that a path leads to. -/
theorem of_empty {p : Path} {home : Location} (tree : d.IsTree)
    (anchored : p.isAbsolute = true ∨ Descends p.steps) (names : d.Names p home)
    (isDir : d.IsDir home) (empty : d.names home = []) :
    ∃ g : Ground, g.path = p ∧ g.home = home ∧ g.Ready d ∧ g.Vacant d := by
  obtain ⟨hvalid, links, hlinks, route⟩ := names
  let g : Ground := ⟨p, home, links, anchored⟩
  have hvacant : g.Vacant d := .of_names tree empty
  -- the way cannot lead through the run root, as nothing is in it
  have hpart : ∀ {l node}, d.node? l = some node → (d.part g.Apart).node? l = some node := by
    intro l node hl
    rw [Disk.node?_part, if_pos, hl]
    by_contra hapart
    rw [hvacant l hapart] at hl
    cases hl
  refine ⟨g, rfl, rfl, fun name isName => ⟨⟨tree, ?_⟩, isDir, ?_⟩, hvacant⟩
  · exact route.mono (fun _ => hpart) fun _ _ => hpart
  · exact Site.fault?_eq_none_iff.2 ⟨hvalid, hlinks⟩

end Ground

end TwinTrees
