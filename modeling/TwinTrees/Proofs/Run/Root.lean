import TwinTrees.Proofs.Disk.Extension
import TwinTrees.Proofs.Disk.Removal
import TwinTrees.Proofs.Site.Ground
import TwinTrees.Proofs.Verb.Names
import TwinTrees.Run.Batch

/-!
# The root of a run

The first test of a run that has a script to perform makes the root of the run, and the others find
it there. `Rooted` says what is asked of the root: it can be made, it is empty then, and the path is
one that a run gets. Making it again and again comes to the same (`makeRoot`), and the
scripts that can be read have the same text all the time (`Rooted.steady`). At the end the root can
be removed if nothing is in it (`removeRoot_gone`).
-/

namespace TwinTrees

/-- The names in a directory; none if there is no directory. -/
def Disk.children (d : Disk) (p : Path) : List Name :=
  match d.list p with
  | .ok names => names.map Prod.fst
  | .error _ => []

namespace Disk

variable {d : Disk} {p : Path} {l : Location}

theorem Names.list (t : d.IsTree) (h : d.Names p l) (isDir : d.IsDir l) :
    d.list p = .ok (d.names l) := by
  obtain ⟨hvalid, k, hk, route⟩ := h
  obtain ⟨e, he, hdir⟩ := isDir_iff.1 isDir
  unfold Disk.list
  rw [route.find t hk hvalid.noNul hvalid.nonempty hvalid.short he hdir]
  simp only [bind, Except.bind, hdir]
  rfl

theorem isDirectory_of_list {names : List (Name × Kind)} (h : d.list p = .ok names) :
    d.isDirectory p = true := by
  unfold Disk.list at h
  unfold isDirectory
  cases hfind : d.find true p with
  | error fault => rw [hfind] at h; cases h
  | ok found =>
    rw [hfind] at h
    simp only [bind, Except.bind] at h ⊢
    split at h
    · next hkind => rw [hkind]; rfl
    · cases h

theorem children_of_not_isDirectory (h : d.isDirectory p = false) : d.children p = [] := by
  unfold children
  cases hlist : d.list p with
  | error fault => rfl
  | ok names =>
    rw [isDirectory_of_list hlist] at h
    cases h

end Disk

namespace Run

variable {r : Run} {start made d : Disk} {file : Path} {g : Ground} {w : World}

/-- The disk at the start of a run, and the same disk with the root of the run made on it. -/
structure Rooted (r : Run) (start made : Disk) : Prop where
  /-- As `newRoot` has it. -/
  named : ∃ (base : Path) (name : String), r.root = base.join ⟨name⟩ ∧ IsName name.toList
  anchored : r.root.isAbsolute = true ∨ Component.up ∉ r.root.components
  tree : start.IsTree
  working : start.IsDir start.workingDirectory
  makes : ∃ w w' : World, w.disk = start ∧ w'.disk = made ∧
    (Tree.makeDirectories r.root Tree.directoryMode).run w = (.ok (), w')
  empty : made.list r.root = .ok []

/-- The file reads the same whether or not the root of the run is there, and whatever is in it. -/
structure Steady (r : Run) (start made : Disk) (file : Path) : Prop where
  before : start.readText file = made.readText file
  after : ∀ home, made.Names r.root home → ∀ d : Disk, d.IsTree →
    Disk.Alike false (fun l => ¬ (home <+: l ∧ l ≠ home)) made d →
    d.readText file = made.readText file

/-- What a test comes to does not depend on the run root: its script has local names only, and reads
the same all the time. -/
structure Plain (r : Run) (start made : Disk) (file : Path) : Prop where
  names : r.LocalScript start file
  steady : r.Steady start made file

/-- The ground on which the tests of a run have their places. -/
structure Bears (r : Run) (made : Disk) (g : Ground) : Prop where
  path : g.path = r.root
  names : made.Names r.root g.home
  ready : g.Ready made
  vacant : g.Vacant made

/-- The disk of a run at some moment: as at the start, or with the root in place. -/
inductive Course (g : Ground) (start made : Disk) : Disk → Prop
  | fresh : Course g start made start
  | rooted {d : Disk} (ready : g.Ready d) (alike : Disk.Alike false g.Apart made d) :
      Course g start made d

namespace Rooted

variable (h : r.Rooted start made)
include h

theorem isSound (p : Path) : start.IsSound p := .of_working h.tree h.working

theorem extends_made : start.Extends made := by
  obtain ⟨w, w', rfl, rfl, hmake⟩ := h.makes
  have hextends := Tree.extends_makeDirectories (h.isSound r.root) Tree.directoryMode
  rw [hmake] at hextends
  exact hextends

theorem isSound_made (p : Path) : made.IsSound p := by
  have htree : made.IsTree := by
    obtain ⟨w, w', rfl, rfl, hmake⟩ := h.makes
    have honly := Tree.onlyDisk_makeDirectories (h.isSound r.root) Tree.directoryMode
    rw [hmake] at honly
    exact honly.sound.toIsTree
  refine .of_working htree ?_
  obtain ⟨node, hnode, hshown⟩ := h.extends_made.node _ _ h.working
  rw [h.extends_made.workingDirectory, Disk.IsDir, hnode, Node.shown_eq_directory_iff.1 hshown]

theorem isTree_made : made.IsTree := (h.isSound_made r.root).toIsTree

theorem made_eq_of_isDirectory (there : start.isDirectory r.root = true) : made = start := by
  obtain ⟨w, w', rfl, rfl, hmake⟩ := h.makes
  rw [Tree.makeDirectories_of_isDirectory h.tree there] at hmake
  cases hmake
  rfl

theorem text_isEmpty : r.root.text.isEmpty = false := by
  obtain ⟨base, name, hroot, hname⟩ := h.named
  exact hroot ▸ Path.text_isEmpty_join hname

theorem endsInSlash : r.root.endsInSlash = false := by
  obtain ⟨base, name, hroot, hname⟩ := h.named
  rw [hroot]
  exact Path.endsInSlash_join hname

theorem steps : ∃ before n, r.root.steps = before ++ [.name n] := by
  obtain ⟨base, name, hroot, hname⟩ := h.named
  exact ⟨base.steps, name.toList, hroot ▸ Path.steps_join_name hname⟩

theorem empty_of_names {home : Location} (names : made.Names r.root home) :
    made.IsDir home ∧ made.names home = [] := by
  obtain ⟨hvalid, k, hk, route⟩ := names
  have hdir := route.isDir_end h.isTree_made (h.isSound_made r.root).start
  have hlist := Disk.Names.list h.isTree_made ⟨hvalid, k, hk, route⟩ hdir
  rw [h.empty] at hlist
  exact ⟨hdir, (Except.ok.inj hlist).symm⟩

theorem ground_of_names {home : Location} (names : made.Names r.root home) :
    ∃ g : Ground, r.Bears made g ∧ g.home = home := by
  obtain ⟨hdir, hempty⟩ := h.empty_of_names names
  have hanchored : r.root.isAbsolute = true ∨ Descends r.root.steps :=
    h.anchored.imp_right fun hup => Path.descends_iff.2 fun hmem => hup (Path.up_mem_components hmem)
  obtain ⟨g, hpath, rfl, hready, hvacant⟩ := Ground.of_empty h.isTree_made hanchored names hdir hempty
  exact ⟨g, ⟨hpath, names, hready, hvacant⟩, rfl⟩

theorem exists_ground : ∃ g : Ground, r.Bears made g := by
  obtain ⟨home, names, -⟩ := (Disk.isDirectory_iff h.isTree_made).1
    (Disk.isDirectory_of_list h.empty)
  obtain ⟨g, bears, -⟩ := h.ground_of_names names
  exact ⟨g, bears⟩

/-- A script that can be read at the start can be read all the time. -/
theorem steady {text : String} (read : start.readText file = .ok text) :
    r.Steady start made file := by
  have hmade := h.extends_made.readText read
  refine ⟨read.trans hmade.symm, fun home names d tree alike => ?_⟩
  rw [hmade]
  refine (Disk.Extends.of_alike alike fun l hl => ?_).readText hmade
  obtain ⟨hbelow, hne⟩ := not_not.1 hl
  exact h.isTree_made.node?_eq_none_of_names (h.empty_of_names names).2 hbelow hne.symm

/-- A script that can be read and parsed at the start, and has local names only, is plain. -/
theorem plain {text : String} {commands : List (Script.Command Verb)}
    (read : start.readText file = .ok text)
    (parse : Script.parse r.registry file.text text = .ok commands)
    (names : r.LocalCommands file commands) : r.Plain start made file where
  names := localScript_of_read read parse names
  steady := h.steady read

end Rooted

/-- Making the root of a run on a disk in a world. -/
theorem Rooted.of_makes (r : Run) (w : World) (base : Path) (name : String) (root : r.root = base.join ⟨name⟩)
    (isName : IsName name.toList) (absolute : r.root.isAbsolute = true) (tree : w.disk.IsTree)
    (working : w.disk.IsDir w.disk.workingDirectory)
    (makes : ((Tree.makeDirectories r.root Tree.directoryMode).run w).1.toOption = some ())
    (empty : (((Tree.makeDirectories r.root Tree.directoryMode).run w).2.disk.list
      r.root).toOption = some []) :
    r.Rooted w.disk ((Tree.makeDirectories r.root Tree.directoryMode).run w).2.disk where
  named := ⟨base, name, root, isName⟩
  anchored := .inl absolute
  tree := tree
  working := working
  makes := ⟨w, _, rfl, rfl, Action.run_eq_of_toOption makes⟩
  empty := eq_ok_of_toOption empty

theorem Course.alike (course : Course g start made d) (h : r.Rooted start made)
    (bears : r.Bears made g) (ready : g.Ready d) : Disk.Alike false g.Apart made d := by
  cases course with
  | fresh =>
    rw [h.made_eq_of_isDirectory (bears.path ▸ ready.isDirectory)]
    exact .refl _
  | rooted _ alike => exact alike

theorem Course.eq_start (course : Course g start made d) (fresh : ¬ g.Ready d) : d = start := by
  cases course with
  | fresh => rfl
  | rooted ready => exact absurd ready fresh

/-! ## Making the root -/

/-- The root was made, or found, and the clock was read so many times more than once. -/
structure Rooting (g : Ground) (start made : Disk) (w w' : World) (k : Nat) : Prop where
  ready : g.Ready w'.disk
  alike : Disk.Alike false g.Apart made w'.disk
  source : w'.source = w.source
  clock : w'.clock = ⟨w.clock.reading, w.clock.position + k + 1⟩
  found : g.Ready w.disk ∧ w'.disk = w.disk ∧ k = 0 ∨
    ¬ g.Ready w.disk ∧ w.disk = start ∧ g.Vacant w'.disk

theorem makeRoot (h : r.Rooted start made) (bears : r.Bears made g)
    (course : Course g start made w.disk) :
    ∃ w' k, (Tree.makeDirectories r.root Tree.directoryMode).run w = (.ok (), w') ∧
      Rooting g start made w w' k := by
  by_cases ready : g.Ready w.disk
  · have hthere := ready.isDirectory
    rw [bears.path] at hthere
    exact ⟨_, 0, Tree.makeDirectories_of_isDirectory ready.tree hthere, ready,
      course.alike h bears ready, rfl, rfl, .inl ⟨ready, rfl, rfl⟩⟩
  · have hdisk : w.disk = start := course.eq_start ready
    obtain ⟨w₀, w₀', hstart, hmade, hmake⟩ := h.makes
    have hmirror := Tree.mirrors_makeDirectories r.root Tree.directoryMode w₀ w
      ⟨hstart ▸ h.isSound r.root, hdisk ▸ h.isSound r.root, by rw [hstart, hdisk]; exact .refl _⟩
    have honly := Tree.onlyDisk_makeDirectories (w := w) (hdisk ▸ h.isSound r.root)
      Tree.directoryMode
    have hread := Tree.of_makeDirectories (w := w) Tree.directoryMode
      (hdisk ▸ h.isSound r.root) h.text_isEmpty
    rw [hmake] at hmirror
    generalize (Tree.makeDirectories r.root Tree.directoryMode).run w = x at hmirror honly hread ⊢
    obtain ⟨x, w'⟩ := x
    obtain ⟨hok, mirror⟩ := hmirror
    obtain rfl : x = .ok () := hok.symm
    obtain ⟨k, hk⟩ := Nat.exists_eq_add_of_lt (hread rfl).2
    have hsame : Disk.SameTree made w'.disk := hmade ▸ mirror.same
    have halike : Disk.Alike false g.Apart made w'.disk := hsame.mono fun _ _ => trivial
    refine ⟨w', k, rfl, bears.ready.of_alike honly.sound.toIsTree halike, halike, honly.source, ?_,
      .inr ⟨ready, hdisk, bears.vacant.of_sameTree hsame⟩⟩
    calc w'.clock = ⟨w'.clock.reading, w'.clock.position⟩ := rfl
      _ = ⟨w.clock.reading, w.clock.position + k + 1⟩ := by
        rw [honly.reading]
        exact congrArg _ hk

theorem Plain.names_made (plain : r.Plain start made file) : r.LocalScript made file := by
  intro text commands hread
  rw [← plain.steady.before] at hread
  exact plain.names text commands hread

theorem Steady.read (h : r.Steady start made file) (bears : r.Bears made g)
    (course : Course g start made d) : d.readText file = made.readText file := by
  cases course with
  | fresh => exact h.before
  | rooted ready alike => exact h.after g.home bears.names d ready.tree alike

/-! ## The root at the end -/

theorem children_eq (bears : r.Bears made g) (ready : g.Ready d) :
    d.children r.root = (d.names g.home).map Prod.fst := by
  have hlist := ready.names.list ready.tree ready.isDir
  rw [bears.path] at hlist
  unfold Disk.children
  rw [hlist]

/-- The children of the root are what is in it. -/
theorem mem_children (bears : r.Bears made g) (ready : g.Ready d) {n : Name} :
    n ∈ d.children r.root ↔ d.node? (g.home ++ [n]) ≠ none := by
  rw [children_eq bears ready, List.mem_map]
  constructor
  · rintro ⟨⟨m, kind⟩, hmem, rfl⟩
    obtain ⟨e, he, -⟩ := Disk.mem_names.1 hmem
    rw [Disk.node?_of_get? (ready.tree.get?_of_mem he)]
    nofun
  · intro hnode
    obtain ⟨e, he⟩ := Option.ne_none_iff_exists'.1 fun hnone => hnode (Disk.node?_eq_none_iff.2 hnone)
    exact ⟨(n, e.node.kind), Disk.mem_names.2 ⟨e, Disk.mem_of_get? he, rfl⟩, rfl⟩

theorem children_of_vacant (bears : r.Bears made g) (ready : g.Ready d) (vacant : g.Vacant d) :
    d.children r.root = [] := by
  rw [List.eq_nil_iff_forall_not_mem]
  intro n hn
  refine (mem_children bears ready).1 hn (vacant _ (not_not_intro ⟨List.prefix_append _ _, ?_⟩))
  simp

/-- The only name in the root is its only child. -/
theorem children_of_only (bears : r.Bears made g) (ready : g.Ready d) {n : Name}
    (there : d.node? (g.home ++ [n]) ≠ none)
    (only : ∀ m, m ≠ n → d.node? (g.home ++ [m]) = none) : d.children r.root = [n] := by
  have hnodup : (d.children r.root).Nodup := by
    rw [children_eq bears ready]
    exact Disk.nodup_names ready.tree.distinct
  rw [← List.perm_singleton, List.perm_ext_iff_of_nodup hnodup (List.nodup_singleton n)]
  intro m
  rw [mem_children bears ready, List.mem_singleton]
  by_cases hm : m = n
  · simp [hm, there]
  · simp [hm, only m hm]

theorem Rooted.children_start (h : r.Rooted start made) : start.children r.root = [] := by
  cases there : start.isDirectory r.root with
  | false => exact Disk.children_of_not_isDirectory there
  | true =>
    have hempty := h.empty
    rw [h.made_eq_of_isDirectory there] at hempty
    unfold Disk.children
    rw [hempty]
    rfl

/-- A root in which nothing is can be removed, also if it was not made. -/
theorem removeRoot_gone (h : r.Rooted start made) (bears : r.Bears made g)
    (empty : g.Ready w.disk ∧ g.Vacant w.disk ∨ w.disk = start) :
    ∃ w', r.removeRoot.run w = (.ok (), w') ∧
      w'.disk.lookAt r.root = .error (.os Errno.noEntry) := by
  have hremove : (g.Ready w.disk ∧ g.Vacant w.disk) →
      ∃ w', (Tree.remove r.root).run w = (.ok (), w') ∧
        w'.disk.lookAt r.root = .error (.os Errno.noEntry) := by
    rintro ⟨ready, vacant⟩
    obtain ⟨before, n, hsteps⟩ := h.steps
    refine Tree.remove_named ready.tree (bears.path ▸ ready.names) ready.isDir ?_ hsteps h.endsInSlash
    rw [Disk.names_eq_nil_iff]
    exact fun n => vacant _ (not_not_intro ⟨List.prefix_append _ _, by simp⟩)
  have hgone : ∃ w', (Tree.remove r.root).run w = (.ok (), w') ∧
      w'.disk.lookAt r.root = .error (.os Errno.noEntry) := by
    obtain hempty | hstart := empty
    · exact hremove hempty
    · obtain ⟨w₀, w₀', hstart₀, -, hmake⟩ := h.makes
      obtain there | free := Tree.there_or_free_of_makeDirectories (w := w₀) h.text_isEmpty
        h.endsInSlash (congrArg Prod.fst hmake)
      · rw [hstart₀] at there
        refine hremove ?_
        rw [hstart, ← h.made_eq_of_isDirectory there]
        exact ⟨bears.ready, bears.vacant⟩
      · rw [hstart₀, ← hstart] at free
        exact ⟨w, Tree.remove_of_free free, free⟩
  obtain ⟨w', hrun, hlook⟩ := hgone
  refine ⟨w', ?_, hlook⟩
  unfold removeRoot
  rw [Action.run_mapError, hrun]
  rfl

end Run

end TwinTrees
