import Mathlib.Logic.Relation
import TwinTrees.Proofs.Run.Reading
import TwinTrees.Proofs.Site.Test

/-!
# Tests stay in their directories

A test whose script has local names only changes nothing but its own directory in the run root, from
any state that it reaches to any later one. The directories above are made if they are missing and
may be modified; nothing else on the disk changes, however the links that the test makes are
chained.
-/

namespace TwinTrees

/-- Where an absolute path without `..` leads, if there is no link on the way. -/
def Path.location (p : Path) : Location := stepNames p.steps

namespace Disk

variable {d d' d'' : Disk} {T dir l : Location} {n : Name} {now : Time} {p q : Path} {mode : Mode}

/-- The disk has changed at and below `T` only, except that directories above `T` were made or
modified. -/
structure Confined (T : Location) (d d' : Disk) : Prop where
  elsewhere : ∀ l, ¬ T <+: l → ¬ l <+: T → d'.get? l = d.get? l
  above : ∀ l e, l <+: T → l ≠ T → d.get? l = some e →
    d'.get? l = some e ∨ e.node = .directory ∧ ∃ t, d'.get? l = some { e with modified := t }
  made : ∀ l e, l <+: T → l ≠ T → d.get? l = none → d'.get? l = some e → e.node = .directory

namespace Confined

theorem refl (T : Location) (d : Disk) : Confined T d d where
  elsewhere _ _ _ := rfl
  above _ _ _ _ he := .inl he
  made _ _ _ _ hnone he := by rw [hnone] at he; cases he

theorem trans (h : Confined T d d') (h' : Confined T d' d'') : Confined T d d'' where
  elsewhere l hl hl' := (h'.elsewhere l hl hl').trans (h.elsewhere l hl hl')
  above l e hl hne he := by
    obtain he' | ⟨hdir, t, he'⟩ := h.above l e hl hne he
    · exact h'.above l e hl hne he'
    · obtain he'' | ⟨-, t', he''⟩ := h'.above l _ hl hne he'
      · exact .inr ⟨hdir, t, he''⟩
      · exact .inr ⟨hdir, t', he''⟩
  made l e hl hne hnone he := by
    cases hmid : d'.get? l with
    | none => exact h'.made l e hl hne hmid he
    | some e' =>
      have hdir := h.made l e' hl hne hnone hmid
      obtain he'' | ⟨-, t, he''⟩ := h'.above l e' hl hne hmid
      · rw [he] at he''; cases he''; exact hdir
      · rw [he] at he''; cases he''; exact hdir

/-- Making a directory above `T`. -/
theorem addEntry (isDir : d.IsDir dir) (free : d.node? (dir ++ [n]) = none)
    (hT : dir ++ [n] <+: T) : Confined T d (d.addEntry now dir n .directory mode) := by
  have hdirT : dir <+: T := (List.prefix_append dir [n]).trans hT
  refine ⟨fun l _ hl' => ?_, fun l e _ _ he => ?_, fun l e _ _ hnone he => ?_⟩
  · rw [get?_addEntry, if_neg (by rintro rfl; exact hl' hT), if_neg (by rintro rfl; exact hl' hdirT)]
  · have hne : l ≠ dir ++ [n] := by
      rintro rfl
      rw [node?_eq_none_iff.1 free] at he
      cases he
    rw [get?_addEntry, if_neg hne]
    split
    · next hl =>
      subst hl
      obtain ⟨e', he', hdir⟩ := isDir_iff.1 isDir
      rw [he] at he' ⊢
      cases he'
      exact .inr ⟨hdir, now, rfl⟩
    · exact .inl he
  · rw [get?_addEntry] at he
    split at he
    · cases he; rfl
    · split at he
      · rw [hnone] at he; cases he
      · rw [hnone] at he; cases he

end Confined

end Disk

/-- What a test changes that stays below its directory. -/
theorem Site.Stays.confined {s : Site} {d d' : Disk} (h : s.Stays d d') (isDir : d.IsDir s.home) :
    Disk.Confined s.root d d' := by
  have hsame : ∀ l, ¬ s.root <+: l → l ≠ s.home → d'.get? l = d.get? l := fun l hl hne =>
    h.off.get? fun hnear => hnear.elim hl hne
  refine ⟨fun l hl hl' => hsame l hl ?_, fun l e hl hne he => ?_, fun l e hl hne hnone he => ?_⟩
  · rintro rfl
    exact hl' (List.prefix_append _ _)
  · by_cases hhome : l = s.home
    · subst hhome
      obtain ⟨e', he', hdir⟩ := Disk.isDir_iff.1 isDir
      rw [he] at he'
      cases he'
      exact .inr ⟨hdir, h.home e he⟩
    · exact .inl ((hsame l (fun hl' => hne (hl.eq_of_length_le hl'.length_le)) hhome).trans he)
  · by_cases hhome : l = s.home
    · subst hhome
      obtain ⟨e', he', -⟩ := Disk.isDir_iff.1 isDir
      rw [hnone] at he'
      cases he'
    · rw [hsame l (fun hl' => hne (hl.eq_of_length_le hl'.length_le)) hhome, hnone] at he
      cases he

namespace Tree

/-- No link is on the way that the path names. -/
def NoLinks (d : Disk) (p : Path) : Prop :=
  ∀ l, l <+: p.location → ∀ target, d.node? l ≠ some (.symlink target)

/-- While the directories along a path without links and `..` are made. -/
structure Paving (p : Path) (T : Location) (d d' : Disk) : Prop where
  confined : Disk.Confined T d d'
  sound : d'.IsSound p
  noLinks : NoLinks d' p

/-- Making the directories along a path without links and `..` changes only what is on it. -/
theorem paving_makeDirectories {p : Path} {T : Location} {w : World} (hT : p.location <+: T)
    (absolute : p.isAbsolute = true) (down : Descends p.steps) (tree : w.disk.IsTree)
    (noLinks : NoLinks w.disk p) (mode : Mode) :
    Paving p T w.disk ((makeDirectories p mode).run w).2.disk := by
  have hstart : ∀ l, p.startFrom l = [] := Path.startFrom_of_absolute absolute
  have hsound : w.disk.IsSound p := ⟨tree, by rw [hstart]; exact tree.root⟩
  refine makeDirectoriesAlong_keeps (I := fun w' => Paving p T w.disk w'.disk)
    (fun q hq w' hw' => ?_) w ⟨.refl T _, hsound, noLinks⟩
  obtain ⟨habs, hsteps⟩ := Path.of_mem_ancestors hq
  rw [Action.run_change]
  cases hmake : w'.disk.makeDirectory (Action.time w') q mode with
  | error e => exact hw'
  | ok d =>
    have hsoundq := hw'.sound.of_isAbsolute_eq habs
    obtain ⟨dir, n, made⟩ := Disk.made_of_makeDirectory hsoundq hmake
    obtain ⟨before, hbefore, k, -, route⟩ := made.steps
    have hbelow : stepNames before ++ [n] <+: p.location := by
      obtain ⟨rest, hrest⟩ := hsteps
      rw [Path.location, ← hrest, hbefore]
      simp [stepNames, Step.name?]
    have hdown : Descends before := fun st hst => down st (hsteps.subset (by rw [hbefore]; simp [hst]))
    rw [Path.startFrom, habs, absolute, if_pos rfl] at route
    have hdir : dir = stepNames before := route.eq_of_noLink hdown fun more hmore target => by
      rw [List.nil_append]
      exact hw'.noLinks more (hmore.trans ((List.prefix_append _ _).trans hbelow)) target
    subst hdir
    refine ⟨hw'.confined.trans ?_, (made.isSound hsoundq).of_isAbsolute_eq habs.symm,
      fun l hl target hlink => ?_⟩
    · show Disk.Confined T w'.disk d
      rw [made.eq]
      exact .addEntry made.isDir made.free (hbelow.trans hT)
    · have hnode := made.node? l
      rw [show d.node? l = _ from hlink] at hnode
      split at hnode
      · cases hnode
      · exact hw'.noLinks l hl target hnode.symm

end Tree

namespace Run

variable {r : Run} {file : Path} {w : World}

/-- One step of the test in a file, if it is not over. -/
def Steps (r : Run) (file : Path) (x y : Progress × World) : Prop :=
  x.1.outcome? = none ∧ y = x.1.step r file x.2

/-- The place of a test in a run root without links and `..`. -/
def plainSite (r : Run) (name : Name) (isName : IsName name) (absolute : r.root.isAbsolute = true) :
    Site where
  runRoot := r.root
  home := r.root.location
  links := 0
  name
  isName
  anchored := .inl absolute

/-- The run root is where its path says. -/
theorem ready_plainSite {name : Name} {isName : IsName name} {absolute : r.root.isAbsolute = true}
    {d : Disk} (down : Descends r.root.steps) (tree : d.IsTree) (noLinks : Tree.NoLinks d r.root)
    (there : d.isDirectory r.root = true) : (r.plainSite name isName absolute).Ready d := by
  obtain ⟨l, ⟨hvalid, k, hk, route⟩, hdir⟩ := (Disk.isDirectory_iff tree).1 there
  have hl : l = r.root.location := by
    rw [Path.startFrom_of_absolute absolute] at route
    refine route.eq_of_noLink down fun more hmore target => ?_
    rw [List.nil_append]
    exact noLinks more hmore target
  subst hl
  refine ⟨⟨tree, ?_⟩, hdir, Site.fault?_eq_none_iff.2 ⟨hvalid, Nat.zero_le _⟩⟩
  show (d.part _).Route 0 (r.root.startFrom d.workingDirectory) r.root.steps r.root.location
  rw [Path.startFrom_of_absolute absolute, ← List.nil_append r.root.location]
  refine Disk.Route.descend down fun more hmore _ => ?_
  have habove : more <+: r.root.location := hmore
  have hapart : (r.plainSite name isName absolute).Apart more := fun h =>
    h.2 (habove.eq_of_length_le h.1.length_le)
  rw [List.nil_append, Disk.IsDir, Disk.node?_part, if_pos hapart]
  by_cases heq : more = r.root.location
  · rw [heq]
    exact hdir
  · exact tree.isDir_of_prefix habove heq (Disk.node?_ne_none_of_eq hdir)

/-- Where the directory of a test is in a run root without links and `..`. -/
def place (r : Run) (file : Path) : Location := r.root.location ++ [(testName file).toList]

/-- A test after its first step: it is over, or it was set up in its place. -/
structure Begins (r : Run) (file : Path) (d : Disk) (x : Progress × World) : Prop where
  confined : Disk.Confined (r.place file) d x.2.disk
  next : x.1.outcome? ≠ none ∨
    ∃ s : Site, s.root = r.place file ∧ s.SameProgress true r.workers x x

theorem begins (registry : r.registry = Verb.standard) (absolute : r.root.isAbsolute = true)
    (down : Descends r.root.steps) (noLinks : Tree.NoLinks w.disk r.root) (tree : w.disk.IsTree)
    (working : w.disk.IsDir w.disk.workingDirectory) (names : r.LocalScript w.disk file) :
    r.Begins file w.disk (Progress.step r file .waiting w) := by
  have hfailed : ∀ {e : RunError} {w' : World}, (r.setUp file).run w = (.error e, w') →
      Disk.Confined (r.place file) w.disk w'.disk →
      r.Begins file w.disk (Progress.step r file .waiting w) := by
    intro e w' hsetUp hconfined
    rw [Progress.step_waiting, hsetUp]
    exact ⟨hconfined, .inl nofun⟩
  have hsound : ∀ p : Path, w.disk.IsSound p := fun p => .of_working tree working
  have hpaving := Tree.paving_makeDirectories (List.prefix_append _ [(testName file).toList])
    absolute down tree noLinks Tree.directoryMode
  cases hread : w.disk.readText file with
  | error fault => exact hfailed (r.setUp_of_unread hread) (.refl _ _)
  | ok text =>
    cases hparse : Script.parse r.registry file.text text with
    | error error => exact hfailed (r.setUp_of_unparsed hread hparse) (.refl _ _)
    | ok commands =>
      have hsetUp := r.setUp_of_read hread hparse
      have hthere := Tree.of_makeDirectories Tree.directoryMode (hsound r.root) (by
        obtain ⟨body, hbody⟩ := Path.isAbsolute_eq_true_iff.1 absolute
        rw [Bool.eq_false_iff]
        intro hempty
        rw [String.isEmpty_iff.1 hempty] at hbody
        cases hbody)
      cases hmake : (Tree.makeDirectories r.root Tree.directoryMode).run w with
      | mk x w' =>
        rw [hmake] at hpaving hsetUp hthere
        cases x with
        | error fault => exact hfailed hsetUp hpaving.confined
        | ok u =>
          let s := r.plainSite (testName file).toList (isName_of_readText (hsound file) hread) absolute
          have hosts : s.Hosts r file := ⟨rfl, String.ofList_toList⟩
          have hready : s.Ready w'.disk :=
            ready_plainSite down hpaving.sound.toIsTree hpaving.noLinks (hthere rfl).1
          by_cases hroot : w'.disk.node? s.root = none
          · have hbegun := Site.Begun.ofReady hready hroot
            obtain ⟨hsame, hstays, -⟩ := Site.sameProgress_of_setUp true hosts registry
              hread hread hparse (names text commands hread hparse) hmake hmake
              ⟨hready, hready⟩ ⟨hbegun, hbegun, .refl _, .refl _, rfl, fun _ => rfl⟩
            exact ⟨hpaving.confined.trans (hstays.confined hready.isDir), .inr ⟨s, rfl, hsame⟩⟩
          · have hthere := Site.enter_there hosts.root hready hroot commands
            rw [hosts.name] at hthere
            exact hfailed (hsetUp.trans hthere) hpaving.confined

/-- Every further step of a test that was set up. -/
theorem confined_later {s : Site} {workers : Nat} {x y : Progress × World}
    (h : s.SameProgress true workers x x)
    (run : Relation.ReflTransGen (r.Steps file) x y) :
    Disk.Confined s.root x.2.disk y.2.disk ∧ s.SameProgress true workers y y := by
  induction run with
  | refl => exact ⟨.refl _ _, h⟩
  | @tail y z _ hstep ih =>
    obtain ⟨hconfined, hsame⟩ := ih
    obtain ⟨hgoing, rfl⟩ := hstep
    obtain ⟨hsame', hstays, -⟩ := hsame.step r file
    refine ⟨hconfined.trans ?_, hsame'⟩
    cases hsame with
    | running world env valid ready => exact (hstays ready.1.tree).confined ready.1.isDir
    | finished => cases hgoing

/-- A test can be taken from where it is to its end. -/
theorem steps_toEnd (r : Run) (file : Path) (p : Progress) (w : World) :
    Relation.ReflTransGen (r.Steps file) (p, w)
      (.finished (p.toEnd r file w).1, (p.toEnd r file w).2) := by
  induction p, w using Progress.toEnd.induct r file with
  | case1 p w outcome h =>
    obtain rfl : p = .finished outcome := by
      cases p with
      | finished o => cases h; rfl
      | _ => cases h
    rw [Progress.toEnd]
    exact .refl
  | case2 p w h ih =>
    rw [Progress.toEnd]
    split
    · next h' => rw [h] at h'; cases h'
    · exact .head ⟨h, rfl⟩ ih

theorem eq_of_over {x y : Progress × World} (h : x.1.outcome? ≠ none)
    (run : Relation.ReflTransGen (r.Steps file) x y) : y = x := by
  obtain rfl | ⟨z, ⟨hgoing, -⟩, -⟩ := run.cases_head
  · rfl
  · exact absurd hgoing h

/-- From any state that a test reaches to any later one, nothing changes but what is at and below
its directory, if its script has local names only and the run root has an absolute path without
links and `..`; except that directories above it are made and modified. -/
theorem test_confined (r : Run) (file : Path) (w : World) {x y : Progress × World}
    (registry : r.registry = Verb.standard) (absolute : r.root.isAbsolute = true)
    (noUp : .up ∉ r.root.components)
    (noLinks : ∀ l, l <+: r.root.location → ∀ target, w.disk.node? l ≠ some (.symlink target))
    (tree : w.disk.IsTree) (working : w.disk.IsDir w.disk.workingDirectory)
    (names : r.LocalScript w.disk file)
    (earlier : Relation.ReflTransGen (r.Steps file) (.waiting, w) x)
    (later : Relation.ReflTransGen (r.Steps file) x y) :
    Disk.Confined (r.place file) x.2.disk y.2.disk := by
  have down : Descends r.root.steps :=
    Path.descends_iff.2 fun hup => noUp (Path.up_mem_components hup)
  obtain ⟨hconfined, hfirst⟩ := begins registry absolute down noLinks tree working names
  have hafter : ∀ {y}, Relation.ReflTransGen (r.Steps file) (Progress.step r file .waiting w) y →
      ∀ {z}, Relation.ReflTransGen (r.Steps file) y z →
      Disk.Confined (r.place file) y.2.disk z.2.disk := by
    intro y hy z hz
    obtain hover | ⟨s, hroot, hsame⟩ := hfirst
    · obtain rfl := eq_of_over hover hy
      rw [eq_of_over hover hz]
      exact .refl _ _
    · rw [← hroot]
      exact (confined_later (confined_later hsame hy).2 hz).1
  obtain rfl | ⟨z, ⟨-, rfl⟩, hx⟩ := earlier.cases_head
  · obtain rfl | ⟨z, ⟨-, rfl⟩, hy⟩ := later.cases_head
    · exact .refl _ _
    · exact hconfined.trans (hafter .refl hy)
  · exact hafter hx later

/-- A script that links a directory and removes a file through the link: the whole test changes
nothing but its own directory. -/
theorem removal_through_link_confined :
    let entry : Node → Entry := fun node => ⟨node, 0o755, ⟨0, 0⟩, ⟨0, 0⟩⟩
    let d : Disk := ⟨[([], entry .directory), (["tmp".toList], entry .directory),
      (["a.t".toList],
        entry (.file 0 "mkfile d/f\nsymlink lhs=l@d\nrm lhs=l/f\n".toUTF8.data))], 1, []⟩
    let r : Run := { root := ⟨"/tmp/run"⟩, registry := Verb.standard, target := .file, workers := 2 }
    let w : World := ⟨⟨d, []⟩, .seeded 0, fun n => ⟨n, 0⟩, 0⟩
    Disk.Confined ["tmp".toList, "run".toList, "a.t".toList] d ((r.test ⟨"/a.t"⟩).run w).2.disk := by
  intro entry d r w
  have hread : d.readText ⟨"/a.t"⟩ = .ok "mkfile d/f\nsymlink lhs=l@d\nrm lhs=l/f\n" := by
    rfl
  have hparse : Script.parse r.registry "/a.t" "mkfile d/f\nsymlink lhs=l@d\nrm lhs=l/f\n" = .ok [
      ⟨⟨"mkfile", Verb.make⟩, "mkfile", ["d/f"], 1⟩,
      ⟨⟨"symlink", Verb.link⟩, "symlink", ["lhs=l@d"], 2⟩,
      ⟨⟨"rm", Verb.remove⟩, "rm", ["lhs=l/f"], 3⟩] := by rfl
  have noLink : ∀ x ∈ d.entries, ∀ target, x.2.node ≠ .symlink target := by
    simp [d, entry]
  have hplace : r.place ⟨"/a.t"⟩ = ["tmp".toList, "run".toList, "a.t".toList] := by decide
  rw [← hplace]
  refine test_confined r ⟨"/a.t"⟩ w rfl (by decide) (by decide) (fun l _ target hlink => ?_)
    (.of_entries (by decide) rfl (by decide)) rfl (fun text' commands hread' hparse' => ?_) .refl
    (steps_toEnd r _ _ w)
  · obtain ⟨e, he, hnode⟩ := Disk.node?_eq_some_iff.1 hlink
    exact noLink _ (Disk.mem_of_get? he) target hnode
  · cases hread.symm.trans hread'
    cases hparse.symm.trans hparse'
    exact localCommands_of_noDollar (by decide) (by decide)

end Run

end TwinTrees
