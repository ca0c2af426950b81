import TwinTrees.Proofs.Base.Stamping
import TwinTrees.Proofs.Site.Marks

/-!
# Giving the trees of a test one time

A side of a test is given a time as any tree is (`Base.stampKind`); what is known of the disk of the
test stays (`Stamping.stampKind`), as only times change.
-/

namespace TwinTrees

namespace Site

open TwinTrees.Action (Triple)

variable {s : Site} {u d d' : Disk} {side : Side} {more m l : Location} {n : Name} {p q : Path}
  {kind : Kind} {time : Time} {done : Location → Prop}

/-- The run root, as a base of paths. -/
def base (s : Site) : Base := ⟨s.runRoot, s.home, s.links⟩

theorem Standing.base (h : s.Standing d) : s.base.Stands d := ⟨h.tree, h.isDir_home, h.wholeRoute⟩

theorem Marks.spells (hp : s.Marks side more p) :
    s.base.Spells p (s.name :: side.name.toList :: more) where
  absolute := hp.absolute
  steps := by
    rw [hp.steps, withoutHere_append, withoutHere_map_name]
    rfl

/-- A disk while the trees are given a time: it looks as `u` did, but for times, and what is done has
the time. -/
structure Stamping (s : Site) (time : Time) (u : Disk) (done : Location → Prop) (d : Disk) : Prop
    extends s.Standing d where
  same : ∀ l, s.Inside l →
    (d.get? l).map (Entry.shown false) = (u.get? l).map (Entry.shown false)
  stamped : ∀ l, done l → d.HasTime time l

namespace Stamping

theorem start (h : s.Standing u) : s.Stamping time u (fun _ => False) u :=
  ⟨h, fun _ _ => rfl, nofun⟩

theorem kind?_eq (h : s.Stamping time u done d) (side : Side) (m : Location) :
    d.kind? (s.side side ++ m) = u.kind? (s.side side ++ m) :=
  Disk.kind?_eq_of_shown (h.same _ ((inside_side side).append m))

theorem setTimesAt (h : s.Stamping time u done d) (hl : s.Inside l) :
    s.Stamping time u done (d.setTimesAt l time) where
  toStanding := (h.toStanding.setTimesAt hl time).standing
  same m hm := by
    rw [← h.same m hm, Disk.setTimesAt, Disk.get?_update]
    split
    · rw [Option.map_map]
      rfl
    · rfl
  stamped m hm := (h.stamped m hm).setTimesAt l

/-- The entries of a kind on a side. -/
def OfKind (s : Site) (side : Side) (kind : Kind) (u : Disk) (l : Location) : Prop :=
  ∃ m, l = s.side side ++ m ∧ u.kind? l = some kind

/-- All entries of a kind on a side have the time once each of them was given it. -/
theorem stampKind (hp : s.Marks side [] p) (hkind : kind ≠ .symlink) :
    Triple (s.Stamping time u done) (Tree.stampKind time kind p)
      fun _ => s.Stamping time u fun l => done l ∨ OfKind s side kind u l := by
  have hside : ∀ m, s.base.location ++ (s.name :: side.name.toList :: m) = s.side side ++ m :=
    s.home_append_names side
  have timing : s.base.Timing time u [s.name, side.name.toList] (s.Stamping time u done) := by
    refine ⟨fun d h => h.toStanding.base, ?_, ?_⟩
    · rintro d h _ ⟨m, rfl⟩
      show d.kind? (s.base.location ++ s.name :: side.name.toList :: m) =
        u.kind? (s.base.location ++ s.name :: side.name.toList :: m)
      rw [hside, h.kind?_eq]
    · rintro d _ h ⟨m, rfl⟩
      show s.Stamping time u done
        (d.setTimesAt (s.base.location ++ s.name :: side.name.toList :: m) time)
      rw [hside]
      exact h.setTimesAt ((inside_side side).append m)
  have isDir : ∀ d, s.Stamping time u done d → u.IsDir (s.side side) := by
    intro d h
    have hkind := h.kind?_eq side []
    rw [List.append_nil, Disk.kind?_eq_directory_iff.2 (h.sides side)] at hkind
    exact Disk.kind?_eq_directory_iff.1 hkind.symm
  refine Triple.given isDir fun isDir => (Base.stampKind timing hp.spells (List.cons_ne_nil _ _)
    (by rw [hside, List.append_nil]; exact isDir) hkind).post ?_
  rintro _ d ⟨h, htime⟩
  refine { h with stamped := fun l hl => hl.elim (h.stamped l) ?_ }
  rintro ⟨m, rfl, hm⟩
  rw [← hside] at hm ⊢
  exact htime _ (List.prefix_append [s.name, side.name.toList] m) hm

end Stamping

end Site

end TwinTrees
