import TwinTrees.Proofs.Disk.Part

/-!
# Ways through a disk

`Disk.proceed` is what a walk does from some directory on, and its equations say it step by step. A
walk sees nothing of a disk but the nodes, so a way through directories and links (`Disk.Route`)
stays a way on every disk that has these (`Route.mono`). Where a way leads to a location, a walk
along it goes on from there with as many links fewer as the way has (`Route.proceed`).
-/

namespace TwinTrees

/-- Where the steps of a path start, seen from a directory. -/
def Path.startFrom (p : Path) (dir : Location) : Location :=
  if p.isAbsolute then [] else dir

theorem Path.startFrom_of_absolute {p : Path} (h : p.isAbsolute = true) (dir : Location) :
    p.startFrom dir = [] := if_pos h

theorem Path.startFrom_of_relative {p : Path} (h : p.isAbsolute = false) (dir : Location) :
    p.startFrom dir = dir := if_neg (Bool.eq_false_iff.1 h)

theorem Path.startFrom_join {p q : Path} (relative : q.isAbsolute = false) (dir : Location) :
    (p.join q).startFrom dir = p.startFrom dir := by
  rw [startFrom, startFrom, isAbsolute_join relative]

/-- The location that a target stands for. -/
def Target.location : Target → Location
  | .directory l _ => l
  | .name dir n _ => dir ++ [n]

namespace Disk

variable {d d' : Disk} {last : LastLink} {links j k : Nat} {slash : Bool}
  {cur l m dir : Location} {e e' : Ending} {n : Name} {steps rest : List Step}

theorem IsTree.isDir_startFrom (t : d.IsTree) (isDir : d.IsDir cur) (p : Path) :
    d.IsDir (p.startFrom cur) := by
  unfold Path.startFrom
  split
  · exact t.root
  · exact isDir

/-- The steps of a walk from a directory, with so many links left to follow. -/
def proceed (d : Disk) (last : LastLink) (links : Nat) (slash : Bool) (cur : Location) (e : Ending)
    (steps : List Step) : Except Errno Target :=
  d.takeSteps last slash (fun dir target rest =>
    match links with
    | 0 => .error Errno.tooManyLinks
    | links + 1 => d.walk last links dir target rest slash) cur e steps

theorem walk_eq (p : Path) :
    d.walk last links cur p rest slash =
      d.proceed last links (slash || (rest.isEmpty && p.endsInSlash)) (p.startFrom cur) .root
        (p.steps ++ rest) := by
  rw [walk]
  rfl

theorem target_eq (last : LastLink) (p : Path) :
    d.target last p =
      if p.hasNul then .error .nulInPath
      else if p.text.isEmpty then .error (.os Errno.noEntry)
      else if pathLimit ≤ Text.byteLength p.text.toList then .error (.os Errno.nameTooLong)
      else (d.proceed last linkLimit p.endsInSlash (p.startFrom d.workingDirectory) .root
        p.steps).mapError .os := by
  rw [target, walk_eq, List.append_nil, List.isEmpty_nil, Bool.false_or, Bool.true_and]

theorem child?_of_short (short : isTooLong n = false) :
    d.child? dir n = .ok (d.get? (dir ++ [n])) := by
  rw [child?, short, if_neg Bool.false_ne_true]

/-- What a walk does at a name. -/
theorem proceed_name :
    d.proceed last links slash cur e (.name n :: rest) =
      if rest = [] ∧ last.follows slash = false then .ok (.name cur n slash)
      else if isTooLong n then .error Errno.nameTooLong
      else match d.node? (cur ++ [n]) with
        | none => if rest = [] then .ok (.name cur n slash) else .error Errno.noEntry
        | some (.symlink target) =>
          match links with
          | 0 => .error Errno.tooManyLinks
          | links + 1 =>
            d.proceed last links (slash || (rest.isEmpty && target.endsInSlash))
              (target.startFrom cur) .root (target.steps ++ rest)
        | some .directory =>
          if rest = [] then .ok (.name cur n slash)
          else d.proceed last links slash (cur ++ [n]) .here rest
        | some (.file ..) =>
          if rest = [] then .ok (.name cur n slash) else .error Errno.notDirectory := by
  rw [proceed, takeSteps]
  by_cases hend : rest = [] ∧ last.follows slash = false
  · rw [if_pos hend, if_pos hend]
  · rw [if_neg hend, if_neg hend, child?, node?]
    cases isTooLong n with
    | true => rfl
    | false =>
      cases d.get? (cur ++ [n]) with
      | none => rfl
      | some entry =>
        obtain ⟨node, mode, accessed, modified⟩ := entry
        cases node with
        | directory => rfl
        | file => rfl
        | symlink target =>
          cases links with
          | zero => rfl
          | succ links => exact walk_eq target

theorem proceed_ending (h : steps ≠ []) :
    d.proceed last links slash cur e steps = d.proceed last links slash cur e' steps := by
  cases steps with
  | nil => exact absurd rfl h
  | cons st rest => cases st <;> rfl

/-- What a walk does at the name of a directory that is not its last step. -/
theorem proceed_name_directory (hrest : rest ≠ []) (short : isTooLong n = false)
    (isDir : d.IsDir (cur ++ [n])) :
    d.proceed last links slash cur e (.name n :: rest) =
      d.proceed last links slash (cur ++ [n]) .here rest := by
  rw [proceed_name, if_neg fun h => hrest h.1, short, if_neg Bool.false_ne_true,
    show d.node? (cur ++ [n]) = some .directory from isDir]
  exact if_neg hrest

/-- What a walk does at the name of a link that is not its last step. -/
theorem proceed_name_link {old : Path} (hrest : rest ≠ []) (short : isTooLong n = false)
    (isLink : d.node? (cur ++ [n]) = some (.symlink old)) :
    d.proceed last (links + 1) slash cur e (.name n :: rest) =
      d.proceed last links slash (old.startFrom cur) .root (old.steps ++ rest) := by
  have hslash : (slash || (rest.isEmpty && old.endsInSlash)) = slash := by simp [hrest]
  rw [proceed_name, if_neg fun h => hrest h.1, short, if_neg Bool.false_ne_true, isLink]
  simp only [hslash]

/-- A walk sees nothing of a disk but its directories and links, and where files are. -/
theorem proceed_congr (same : ∀ l, d'.node? l = d.node? l ∨
      (∃ i b, d'.node? l = some (.file i b)) ∧ ∃ j c, d.node? l = some (.file j c)) :
    d'.proceed last links slash cur e steps = d.proceed last links slash cur e steps := by
  induction links using Nat.strongRecOn generalizing slash cur e steps with
  | _ links ihl =>
  induction steps generalizing cur e with
  | nil => rfl
  | cons st rest ih =>
    cases st with
    | here => exact ih
    | up => exact ih
    | name n =>
      rw [proceed_name, proceed_name]
      obtain hsame | ⟨⟨i, b, hfile'⟩, j, c, hfile⟩ := same (cur ++ [n])
      · rw [hsame]
        cases d.node? (cur ++ [n]) with
        | none => rfl
        | some node =>
          cases node with
          | directory => simp only [ih]
          | file => rfl
          | symlink target =>
            cases links with
            | zero => rfl
            | succ links => simp only [ihl links (Nat.lt_succ_self _)]
      · rw [hfile', hfile]

/-! ## Walks that come out -/

/-- A walk that comes out, step by step, with so many links left. It stops before its last step if
this is the name of no link, or of one that it would not follow. -/
inductive Walks (d : Disk) (last : LastLink) :
    Nat → Bool → Location → Ending → List Step → Target → Prop
  | done {links : Nat} {slash : Bool} {cur : Location} {e : Ending} :
      Walks d last links slash cur e [] (.directory cur e)
  | here {links : Nat} {slash : Bool} {cur : Location} {e : Ending} {rest : List Step}
      {target : Target} (onward : Walks d last links slash cur .here rest target) :
      Walks d last links slash cur e (.here :: rest) target
  | up {links : Nat} {slash : Bool} {cur : Location} {e : Ending} {rest : List Step}
      {target : Target} (onward : Walks d last links slash cur.dropLast .up rest target) :
      Walks d last links slash cur e (.up :: rest) target
  | stop {links : Nat} {slash : Bool} {cur : Location} {e : Ending} {n : Name}
      (keeps : last.follows slash = false) :
      Walks d last links slash cur e [.name n] (.name cur n slash)
  | name {links : Nat} {slash : Bool} {cur : Location} {e : Ending} {n : Name}
      (short : isTooLong n = false) (noLink : ∀ old, d.node? (cur ++ [n]) ≠ some (.symlink old)) :
      Walks d last links slash cur e [.name n] (.name cur n slash)
  | directory {links : Nat} {slash : Bool} {cur : Location} {e : Ending} {n : Name}
      {rest : List Step} {target : Target} (hrest : rest ≠ []) (short : isTooLong n = false)
      (isDir : d.IsDir (cur ++ [n])) (onward : Walks d last links slash (cur ++ [n]) .here rest target) :
      Walks d last links slash cur e (.name n :: rest) target
  | link {links : Nat} {slash : Bool} {cur : Location} {e : Ending} {n : Name} {rest : List Step}
      {target : Target} {old : Path} (follows : rest = [] → last.follows slash = true)
      (short : isTooLong n = false) (isLink : d.node? (cur ++ [n]) = some (.symlink old))
      (onward : Walks d last links (slash || (rest.isEmpty && old.endsInSlash)) (old.startFrom cur)
        .root (old.steps ++ rest) target) :
      Walks d last (links + 1) slash cur e (.name n :: rest) target

theorem Walks.proceed {target : Target} (h : d.Walks last links slash cur e steps target) :
    d.proceed last links slash cur e steps = .ok target := by
  induction h with
  | done => rfl
  | here _ ih => exact ih
  | up _ ih => exact ih
  | stop keeps => rw [proceed_name, if_pos ⟨rfl, keeps⟩]
  | @name _ _ cur _ n short noLink =>
    rw [proceed_name]
    split
    · rfl
    · rw [short, if_neg Bool.false_ne_true]
      cases hnode : d.node? (cur ++ [n]) with
      | none => rfl
      | some node =>
        cases node with
        | directory => rfl
        | file => rfl
        | symlink old => exact absurd hnode (noLink old)
  | directory hrest short isDir _ ih => rw [proceed_name_directory hrest short isDir, ih]
  | link follows short isLink _ ih =>
    rw [proceed_name, if_neg fun h => Bool.false_ne_true (h.2.symm.trans (follows h.1)), short,
      if_neg Bool.false_ne_true, isLink]
    exact ih

theorem walks_of_proceed {target : Target}
    (h : d.proceed last links slash cur e steps = .ok target) :
    d.Walks last links slash cur e steps target := by
  induction links using Nat.strongRecOn generalizing slash cur e steps with
  | _ links ihl =>
  induction steps generalizing cur e with
  | nil => cases h; exact .done
  | cons st rest ih =>
    cases st with
    | here => exact .here (ih h)
    | up => exact .up (ih h)
    | name n =>
      rw [proceed_name] at h
      split at h
      · next hend =>
        obtain ⟨rfl, keeps⟩ := hend
        cases h
        exact .stop keeps
      · next hend =>
        split at h
        · cases h
        · next hlong =>
          have short := Bool.eq_false_iff.2 hlong
          -- What is no link ends the walk if it is at the last step.
          have hname : rest = [] → (∀ old, d.node? (cur ++ [n]) ≠ some (.symlink old)) →
              d.Walks last links slash cur e (.name n :: rest) (.name cur n slash) := by
            rintro rfl noLink
            exact .name short noLink
          split at h
          · next hnode =>
            split at h
            · next hrest => cases h; exact hname hrest (by simp [hnode])
            · cases h
          · next old hlink =>
            cases links with
            | zero => cases h
            | succ links =>
              exact .link (fun hrest => eq_true_of_ne_false fun keeps => hend ⟨hrest, keeps⟩)
                short hlink (ihl links (Nat.lt_succ_self _) h)
          · next hnode =>
            split at h
            · next hrest => cases h; exact hname hrest (by simp [hnode])
            · next hrest => exact .directory hrest short hnode (ih h)
          · next hnode =>
            split at h
            · next hrest => cases h; exact hname hrest (by simp [hnode])
            · cases h

/-- A walk that follows a link at its end does not stop for one. -/
theorem not_stops_follow {slash : Bool} : LastLink.follow.follows slash ≠ false := nofun

/-! ## Routes -/

/-- A way from a directory along steps to a location. All it passes through is there, and it follows
so many links. -/
inductive Route (d : Disk) : Nat → Location → List Step → Location → Prop
  | nil {cur : Location} : Route d 0 cur [] cur
  | here {k : Nat} {cur l : Location} {rest : List Step} (onward : Route d k cur rest l) :
      Route d k cur (.here :: rest) l
  | up {k : Nat} {cur l : Location} {rest : List Step} (onward : Route d k cur.dropLast rest l) :
      Route d k cur (.up :: rest) l
  | directory {k : Nat} {cur l : Location} {n : Name} {rest : List Step}
      (isDir : d.IsDir (cur ++ [n])) (onward : Route d k (cur ++ [n]) rest l) :
      Route d k cur (.name n :: rest) l
  | link {k : Nat} {cur l : Location} {n : Name} {target : Path} {rest : List Step}
      (isLink : d.node? (cur ++ [n]) = some (.symlink target))
      (onward : Route d k (target.startFrom cur) (target.steps ++ rest) l) :
      Route d (k + 1) cur (.name n :: rest) l

namespace Route

/-- Whatever keeps directories and links keeps the ways through them. -/
theorem mono (r : d.Route k cur steps l) (hdir : ∀ m, d.IsDir m → d'.IsDir m)
    (hlink : ∀ m target, d.node? m = some (.symlink target) →
      d'.node? m = some (.symlink target)) : d'.Route k cur steps l := by
  induction r with
  | nil => exact .nil
  | here _ ih => exact .here ih
  | up _ ih => exact .up ih
  | directory isDir _ ih => exact .directory (hdir _ isDir) ih
  | link isLink _ ih => exact .link (hlink _ _ isLink) ih

/-- A way through a part of the disk is one through the disk. -/
theorem of_part {Q : Location → Prop} [DecidablePred Q] (r : (d.part Q).Route k cur steps l) :
    d.Route k cur steps l :=
  r.mono (fun _ hm => (of_node?_part hm).2) fun _ _ hm => (of_node?_part hm).2

/-- Parts that look the same have the same ways through them. -/
theorem of_alike {times : Bool} {Q Q' : Location → Prop} [DecidablePred Q] [DecidablePred Q']
    (r : (d.part Q).Route k cur steps l) (alike : Alike times Q' d d') (hq : ∀ l, Q l → Q' l) :
    (d'.part Q).Route k cur steps l := by
  refine r.mono (fun m hm => ?_) fun m target hm => ?_
  · obtain ⟨hm, isDir⟩ := of_node?_part hm
    rw [IsDir, node?_part, if_pos hm]
    exact alike.isDir (hq m hm) isDir
  · obtain ⟨hm, isLink⟩ := of_node?_part hm
    rw [node?_part, if_pos hm]
    exact alike.symlink (hq m hm) isLink

theorem append {steps' : List Step} (r : d.Route k cur steps l) (r' : d.Route j l steps' m) :
    d.Route (k + j) cur (steps ++ steps') m := by
  induction r with
  | nil => rwa [Nat.zero_add]
  | here _ ih => exact .here (ih r')
  | up _ ih => exact .up (ih r')
  | directory isDir _ ih => exact .directory isDir (ih r')
  | link isLink _ ih =>
    rw [Nat.add_right_comm]
    exact .link isLink (List.append_assoc .. ▸ ih r')

theorem single (h : d.IsDir (cur ++ [n])) : d.Route 0 cur [.name n] (cur ++ [n]) :=
  .directory h .nil

/-- A way down through directories. -/
theorem descend (hdown : Descends steps)
    (h : ∀ more, more <+: stepNames steps → more ≠ [] → d.IsDir (cur ++ more)) :
    d.Route 0 cur steps (cur ++ stepNames steps) := by
  induction steps generalizing cur with
  | nil => rw [stepNames, List.filterMap_nil, List.append_nil]; exact .nil
  | cons st rest ih =>
    cases st with
    | here => exact .here (ih hdown.tail h)
    | up => exact (hdown .up List.mem_cons_self).elim
    | name n =>
      have hcons : stepNames (.name n :: rest) = n :: stepNames rest := rfl
      rw [hcons] at h
      rw [hcons, List.append_cons]
      refine .directory (h [n] ((List.prefix_append [n] _)) (List.cons_ne_nil _ _))
        (ih hdown.tail fun more hmore _ => ?_)
      rw [← List.append_cons]
      exact h (n :: more) (List.prefix_cons_inj n |>.2 hmore) (List.cons_ne_nil _ _)

/-- A way down a tree to a directory. -/
theorem descend_of_isDir (t : d.IsTree) (hdown : Descends steps)
    (h : d.IsDir (cur ++ stepNames steps)) : d.Route 0 cur steps (cur ++ stepNames steps) := by
  refine descend hdown fun more hmore _ => ?_
  obtain ⟨rest, hrest⟩ := hmore
  rw [← hrest, ← List.append_assoc] at h
  by_cases hnil : rest = []
  · rwa [hnil, List.append_nil] at h
  · exact t.isDir_of_append (node?_ne_none_of_eq h) hnil

/-- A way down that meets no link leads where the names say. -/
theorem eq_of_noLink (r : d.Route k cur steps l) (hdown : Descends steps)
    (h : ∀ more, more <+: stepNames steps → ∀ target, d.node? (cur ++ more) ≠ some (.symlink target)) :
    l = cur ++ stepNames steps := by
  induction r with
  | nil => exact (List.append_nil _).symm
  | here _ ih => exact ih hdown.tail h
  | up _ _ => exact (hdown .up List.mem_cons_self).elim
  | @directory _ cur _ n rest _ _ ih =>
    have hcons : stepNames (.name n :: rest) = n :: stepNames rest := rfl
    rw [hcons] at h ⊢
    rw [List.append_cons]
    refine ih hdown.tail fun more hmore => ?_
    rw [← List.append_cons]
    exact h (n :: more) ((List.prefix_cons_inj n).2 hmore)
  | @link _ cur _ n target rest isLink _ _ =>
    exact absurd isLink (h [n] (List.prefix_append [n] (stepNames rest)) target)

/-- The end of a way is where it starts, or a directory. -/
theorem isDir_end (t : d.IsTree) (r : d.Route k cur steps l) (h : d.IsDir cur) : d.IsDir l := by
  induction r with
  | nil => exact h
  | here _ ih => exact ih h
  | up _ ih => exact ih (t.isDir_dropLast h)
  | directory isDir _ ih => exact ih isDir
  | @link _ _ _ _ target _ _ _ ih => exact ih (t.isDir_startFrom h target)

theorem not_isTooLong (t : d.IsTree) (h : d.node? (cur ++ [n]) ≠ none) : isTooLong n = false :=
  (t.named h).short

/-- A walk along a way goes on from its end. -/
theorem proceed (t : d.IsTree) (r : d.Route k cur steps l) {f : Ending} (hrest : rest ≠ []) :
    d.proceed last (k + j) slash cur e (steps ++ rest) = d.proceed last j slash l f rest := by
  induction r generalizing e with
  | nil => rw [Nat.zero_add]; exact proceed_ending hrest
  | here _ ih => exact ih
  | up _ ih => exact ih
  | directory isDir _ ih =>
    have short := not_isTooLong t (node?_ne_none_of_eq isDir)
    rw [List.cons_append, proceed_name_directory (by simp [hrest]) short isDir, ih]
  | link isLink _ ih =>
    have short := not_isTooLong t (node?_ne_none_of_eq isLink)
    rw [List.cons_append, Nat.add_right_comm, proceed_name_link (by simp [hrest]) short isLink,
      ← List.append_assoc, ih]

/-- A walk along a way with too many links ends there. -/
theorem proceed_short (t : d.IsTree) (r : d.Route k cur steps l) (hrest : rest ≠ [])
    (hj : j < k) :
    d.proceed last j slash cur e (steps ++ rest) = .error Errno.tooManyLinks := by
  induction r generalizing e j slash with
  | nil => exact absurd hj (Nat.not_lt_zero _)
  | here _ ih => exact ih hj
  | up _ ih => exact ih hj
  | directory isDir _ ih =>
    have short := not_isTooLong t (node?_ne_none_of_eq isDir)
    rw [List.cons_append, proceed_name_directory (by simp [hrest]) short isDir, ih hj]
  | link isLink _ ih =>
    have short := not_isTooLong t (node?_ne_none_of_eq isLink)
    rw [List.cons_append]
    cases j with
    | zero => rw [proceed_name, if_neg (by simp [hrest]), short, if_neg Bool.false_ne_true, isLink]
    | succ j =>
      rw [proceed_name_link (by simp [hrest]) short isLink, ← List.append_assoc,
        ih (Nat.lt_of_succ_lt_succ hj)]

end Route

/-- A walk that starts in a directory and comes to a name has found it in a directory. -/
theorem Walks.spot (t : d.IsTree) {target : Target}
    (h : d.Walks last links slash cur e steps target) (isDir : d.IsDir cur)
    (names : ∀ m, .name m ∈ steps → Step.of? m = some (.name m) ∧ '/' ∉ m) {slash' : Bool}
    (htarget : target = .name dir n slash') :
    d.IsDir dir ∧ Step.of? n = some (.name n) ∧ '/' ∉ n := by
  induction h with
  | done => cases htarget
  | here _ ih => exact ih isDir (fun m hm => names m (List.mem_cons_of_mem _ hm)) htarget
  | up _ ih =>
    exact ih (t.isDir_dropLast isDir) (fun m hm => names m (List.mem_cons_of_mem _ hm)) htarget
  | stop | name =>
    cases htarget
    exact ⟨isDir, names _ List.mem_cons_self⟩
  | directory _ _ hdir _ ih => exact ih hdir (fun m hm => names m (List.mem_cons_of_mem _ hm)) htarget
  | @link _ _ _ _ _ _ _ old _ _ _ _ ih =>
    refine ih (t.isDir_startFrom isDir old) (fun m hm => ?_) htarget
    obtain hm | hm := List.mem_append.1 hm
    · exact Path.mem_steps_name hm
    · exact names m (List.mem_cons_of_mem _ hm)

/-- A walk that comes to a name at which there is something, and no link, comes there as well if it
follows links at its end. -/
theorem Walks.follow (t : d.IsTree) {target : Target}
    (h : d.Walks last links slash cur e steps target)
    (there : ∀ dir n slash', target = .name dir n slash' →
      ∃ node, d.node? (dir ++ [n]) = some node ∧ node.kind ≠ .symlink) :
    d.Walks .follow links slash cur e steps target := by
  induction h with
  | done => exact .done
  | here _ ih => exact .here (ih there)
  | up _ ih => exact .up (ih there)
  | stop | name =>
    obtain ⟨node, hnode, hkind⟩ := there _ _ _ rfl
    refine .name (t.named (node?_ne_none_of_eq hnode)).short fun old hold => hkind ?_
    rw [Option.some.inj (hnode.symm.trans hold)]
    rfl
  | directory hrest short isDir _ ih => exact .directory hrest short isDir (ih there)
  | link _ short isLink _ ih => exact .link (fun _ => rfl) short isLink (ih there)

/-- Where two lists come together, the end of the one is the end of the other. -/
theorem of_append_eq_concat {α : Type} {front rest before : List α} {x : α}
    (h : front ++ rest = before ++ [x]) (hrest : rest ≠ []) :
    ∃ before', rest = before' ++ [x] ∧ before = front ++ before' := by
  obtain rfl | ⟨before', y, rfl⟩ := rest.eq_nil_or_concat'
  · exact absurd rfl hrest
  · rw [← List.append_assoc] at h
    obtain ⟨rfl, hy⟩ := List.append_inj' h rfl
    exact ⟨before', by rw [hy], rfl⟩

/-- The way of a walk that follows no link at its end. -/
theorem Walks.route_keep {target : Target} (h : d.Walks .keep links slash cur e steps target) :
    ∃ k, k ≤ links ∧
      ((∃ l e', target = .directory l e' ∧ d.Route k cur steps l) ∨
        ∃ dir n before, target = .name dir n slash ∧ steps = before ++ [.name n] ∧
          d.Route k cur before dir) := by
  induction h with
  | @done _ _ cur e => exact ⟨0, Nat.zero_le _, .inl ⟨cur, e, rfl, .nil⟩⟩
  | here _ ih =>
    obtain ⟨k, hk, ⟨l, e', rfl, r⟩ | ⟨dir, n, before, rfl, rfl, r⟩⟩ := ih
    · exact ⟨k, hk, .inl ⟨l, e', rfl, .here r⟩⟩
    · exact ⟨k, hk, .inr ⟨dir, n, .here :: before, rfl, rfl, .here r⟩⟩
  | up _ ih =>
    obtain ⟨k, hk, ⟨l, e', rfl, r⟩ | ⟨dir, n, before, rfl, rfl, r⟩⟩ := ih
    · exact ⟨k, hk, .inl ⟨l, e', rfl, .up r⟩⟩
    · exact ⟨k, hk, .inr ⟨dir, n, .up :: before, rfl, rfl, .up r⟩⟩
  | @stop _ _ cur _ n | @name _ _ cur _ n =>
    exact ⟨0, Nat.zero_le _, .inr ⟨cur, n, [], rfl, rfl, .nil⟩⟩
  | @directory _ _ _ _ m _ _ _ _ isDir _ ih =>
    obtain ⟨k, hk, ⟨l, e', rfl, r⟩ | ⟨dir, n, before, rfl, rfl, r⟩⟩ := ih
    · exact ⟨k, hk, .inl ⟨l, e', rfl, .directory isDir r⟩⟩
    · exact ⟨k, hk, .inr ⟨dir, n, .name m :: before, rfl, rfl, .directory isDir r⟩⟩
  | @link _ slash _ _ m rest _ old follows _ isLink _ ih =>
    have hrest : rest ≠ [] := fun hnil => Bool.false_ne_true (follows hnil)
    have hslash : (slash || (rest.isEmpty && old.endsInSlash)) = slash := by simp [hrest]
    rw [hslash] at ih
    obtain ⟨k, hk, ⟨l, e', rfl, r⟩ | ⟨dir, n, before, rfl, hsteps, r⟩⟩ := ih
    · exact ⟨k + 1, Nat.succ_le_succ hk, .inl ⟨l, e', rfl, .link isLink r⟩⟩
    · -- The last name is not one of the link.
      obtain ⟨before', rfl, rfl⟩ := of_append_eq_concat hsteps hrest
      exact ⟨k + 1, Nat.succ_le_succ hk, .inr ⟨dir, n, .name m :: before', rfl, rfl, .link isLink r⟩⟩

/-- The way of a walk that finds a directory and follows a link at its end. -/
theorem Walks.route_follow {target : Target} (h : d.Walks .follow links slash cur e steps target)
    (hdir : d.IsDir target.location) : ∃ k, k ≤ links ∧ d.Route k cur steps target.location := by
  induction h with
  | done => exact ⟨0, Nat.zero_le _, .nil⟩
  | here _ ih =>
    obtain ⟨k, hk, r⟩ := ih hdir
    exact ⟨k, hk, .here r⟩
  | up _ ih =>
    obtain ⟨k, hk, r⟩ := ih hdir
    exact ⟨k, hk, .up r⟩
  | stop keeps => exact absurd keeps not_stops_follow
  | name => exact ⟨0, Nat.zero_le _, .single hdir⟩
  | directory _ _ isDir _ ih =>
    obtain ⟨k, hk, r⟩ := ih hdir
    exact ⟨k, hk, .directory isDir r⟩
  | link _ _ isLink _ ih =>
    obtain ⟨k, hk, r⟩ := ih hdir
    exact ⟨k + 1, Nat.succ_le_succ hk, .link isLink r⟩

/-! ## What is found -/

theorem of_child?_eq_ok {found : Option Entry} (h : d.child? dir n = .ok found) :
    isTooLong n = false ∧ d.get? (dir ++ [n]) = found := by
  unfold child? at h
  split at h
  · cases h
  · next hshort => exact ⟨Bool.eq_false_iff.2 hshort, Except.ok.inj h⟩

/-- The entry is there where a walk has come to. After a slash, only a directory is found. -/
structure Finds (d : Disk) (target : Target) (entry : Entry) : Prop where
  there : d.get? target.location = some entry
  name : ∀ dir n slash, target = .name dir n slash →
    isTooLong n = false ∧ (slash = true → entry.node = .directory)

theorem find_eq_ok_iff {follow : Bool} {p : Path} {entry : Entry} :
    d.find follow p = .ok (l, entry) ↔
      ∃ target, d.target (if follow || p.endsInSlash then .follow else .keep) p = .ok target ∧
        target.location = l ∧ d.Finds target entry := by
  unfold find
  constructor
  · intro h
    cases htarget : d.target (if follow || p.endsInSlash then .follow else .keep) p with
    | error fault => rw [htarget] at h; cases h
    | ok target =>
      rw [htarget] at h
      cases target with
      | directory m ending =>
        simp only [bind, Except.bind] at h
        split at h
        · next hget => cases h; exact ⟨_, rfl, rfl, hget, nofun⟩
        · cases h
      | name dir n slash =>
        simp only [bind, Except.bind] at h
        cases hchild : d.child? dir n with
        | error fault => rw [hchild] at h; cases h
        | ok found =>
          rw [hchild] at h
          obtain ⟨short, hget⟩ := of_child?_eq_ok hchild
          cases found with
          | none => cases h
          | some found =>
            simp only [Except.mapError] at h
            split at h
            · cases h
            · next hslash =>
              cases h
              refine ⟨_, rfl, rfl, hget, ?_⟩
              rintro _ _ _ ⟨⟩
              exact ⟨short, fun hs => by simpa [hs, kind_eq_directory_iff] using hslash⟩
  · rintro ⟨target, htarget, rfl, there, hname⟩
    rw [htarget]
    cases target with
    | directory m ending =>
      simp only [bind, Except.bind, show d.get? m = some entry from there]
      rfl
    | name dir n slash =>
      obtain ⟨short, hdir⟩ := hname dir n slash rfl
      have hkind : (slash && entry.node.kind != .directory) = false := by
        cases slash with
        | false => rfl
        | true => simp [hdir rfl, Node.kind]
      simp only [bind, Except.bind, child?_of_short short,
        show d.get? (dir ++ [n]) = some entry from there, Except.mapError, hkind]
      rfl

/-- What was found is at the location that the path leads to. -/
theorem of_find {follow : Bool} {p : Path} {entry : Entry} (h : d.find follow p = .ok (l, entry)) :
    ∃ target, d.target (if follow || p.endsInSlash then .follow else .keep) p = .ok target ∧
      target.location = l ∧ d.get? l = some entry := by
  obtain ⟨target, htarget, rfl, finds⟩ := find_eq_ok_iff.1 h
  exact ⟨target, htarget, rfl, finds.there⟩

namespace Route

/-- A walk along a way finds its end if it follows a link there. -/
theorem walks_follow (t : d.IsTree) (r : d.Route k cur steps l) (hk : k ≤ links) :
    ∃ target, d.Walks .follow links slash cur e steps target ∧ target.location = l := by
  induction r generalizing e links slash with
  | nil => exact ⟨_, .done, rfl⟩
  | here _ ih =>
    obtain ⟨target, h, hl⟩ := ih hk
    exact ⟨target, .here h, hl⟩
  | up _ ih =>
    obtain ⟨target, h, hl⟩ := ih hk
    exact ⟨target, .up h, hl⟩
  | @directory _ _ _ _ rest isDir onward ih =>
    have short := not_isTooLong t (node?_ne_none_of_eq isDir)
    by_cases hrest : rest = []
    · subst hrest
      cases onward
      exact ⟨_, .name short isDir.ne_symlink, rfl⟩
    · obtain ⟨target, h, hl⟩ := ih hk
      exact ⟨target, .directory hrest short isDir h, hl⟩
  | link isLink _ ih =>
    have short := not_isTooLong t (node?_ne_none_of_eq isLink)
    cases links with
    | zero => cases hk
    | succ links =>
      obtain ⟨target, h, hl⟩ := ih (Nat.le_of_succ_le_succ hk)
      exact ⟨target, .link (fun _ => rfl) short isLink h, hl⟩

/-- A walk along a way that does not follow a link at the end stops before its last step, where
something is. -/
theorem walks_keep (t : d.IsTree) (r : d.Route k cur steps l) (hk : k ≤ links) :
    ∃ target, d.Walks .keep links slash cur e steps target ∧
      ∀ dir n slash', target = .name dir n slash' → d.node? (dir ++ [n]) ≠ none := by
  induction r generalizing e links slash with
  | nil => exact ⟨_, .done, nofun⟩
  | here _ ih =>
    obtain ⟨target, h, there⟩ := ih hk
    exact ⟨target, .here h, there⟩
  | up _ ih =>
    obtain ⟨target, h, there⟩ := ih hk
    exact ⟨target, .up h, there⟩
  | @directory _ _ _ _ rest isDir _ ih =>
    have there := node?_ne_none_of_eq isDir
    by_cases hrest : rest = []
    · subst hrest
      exact ⟨_, .stop rfl, fun _ _ _ heq => by cases heq; exact there⟩
    · obtain ⟨target, h, hthere⟩ := ih hk
      exact ⟨target, .directory hrest (not_isTooLong t there) isDir h, hthere⟩
  | @link _ _ _ _ _ rest isLink _ ih =>
    have there := node?_ne_none_of_eq isLink
    by_cases hrest : rest = []
    · subst hrest
      exact ⟨_, .stop rfl, fun _ _ _ heq => by cases heq; exact there⟩
    · cases links with
      | zero => cases hk
      | succ links =>
        obtain ⟨target, h, hthere⟩ := ih (Nat.le_of_succ_le_succ hk)
        exact ⟨target, .link (absurd · hrest) (not_isTooLong t there) isLink h, hthere⟩

/-- A path that leads along a way to a directory names it. -/
theorem find (t : d.IsTree) {p : Path} (r : d.Route k (p.startFrom d.workingDirectory) p.steps l)
    (hk : k ≤ linkLimit) (hnul : p.hasNul = false) (hempty : p.text.isEmpty = false)
    (hshort : Text.byteLength p.text.toList < pathLimit) {entry : Entry}
    (hl : d.get? l = some entry) (hdir : entry.node = .directory) :
    d.find true p = .ok (l, entry) := by
  obtain ⟨target, htarget, hloc⟩ : ∃ target, d.Walks .follow linkLimit p.endsInSlash
      (p.startFrom d.workingDirectory) .root p.steps target ∧ target.location = l :=
    r.walks_follow t hk
  refine find_eq_ok_iff.2 ⟨target, ?_, hloc, hloc ▸ hl, ?_⟩
  · rw [Bool.true_or, if_pos rfl, target_eq, hnul, if_neg Bool.false_ne_true, hempty,
      if_neg Bool.false_ne_true, if_neg (Nat.not_le_of_lt hshort), htarget.proceed]
    rfl
  · rintro dir n slash rfl
    obtain rfl : dir ++ [n] = l := hloc
    exact ⟨not_isTooLong t (node?_ne_none_of_eq (node?_of_get? hl)), fun _ => hdir⟩

end Route

end Disk

end TwinTrees
