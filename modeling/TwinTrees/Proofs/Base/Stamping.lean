import TwinTrees.Proofs.Base.Spelling
import TwinTrees.Proofs.Disk.Kind
import TwinTrees.Proofs.Triple
import TwinTrees.Tree.Stamp

/-!
# Giving a tree one time

A walk down from a directory that meets no error visits every entry below it at a path that spells
its names, and visits nothing else (`Base.Surveys`). So, if no visit fails, each entry of the kind
that is asked for gets the time (`Base.stampKind`). Only times change, so what was visited is still
what it was when its turn comes.
-/

namespace TwinTrees.Base

open TwinTrees.Action (Triple)

variable {b : Base} {u d d' : Disk} {more m l : Location} {n : Name} {p q : Path} {kind : Kind}
  {time : Time} {below : Location → Prop} {visits : List (Except WalkError (Path × Kind))}

/-! ## What a walk visits -/

/-- The visits are at paths that spell the names of entries, and if there is no error among them, of
all entries below. -/
structure Surveys (b : Base) (d : Disk) (below : Location → Prop)
    (visits : List (Except WalkError (Path × Kind))) : Prop where
  sound : ∀ q kind, .ok (q, kind) ∈ visits →
    ∃ m, below m ∧ b.Spells q m ∧ d.kind? (b.location ++ m) = some kind
  complete : (∀ e, .error e ∉ visits) → ∀ m kind, below m →
    d.kind? (b.location ++ m) = some kind → ∃ q, .ok (q, kind) ∈ visits ∧ b.Spells q m

theorem Surveys.error (e : WalkError) : b.Surveys d below [.error e] where
  sound _ _ hq := nomatch List.mem_singleton.1 hq
  complete noError := absurd List.mem_cons_self (noError e)

theorem Surveys.congr (h : b.Surveys d below visits)
    (hkind : ∀ m, below m → d'.kind? (b.location ++ m) = d.kind? (b.location ++ m)) :
    b.Surveys d' below visits where
  sound q kind hq := by
    obtain ⟨m, hm, hspells, hk⟩ := h.sound q kind hq
    exact ⟨m, hm, hspells, (hkind m hm).trans hk⟩
  complete noError m kind hm hk := h.complete noError m kind hm ((hkind m hm).symm.trans hk)

/-- The names strictly below. -/
def StrictlyBelow (more : Location) : Location → Prop := fun m => ∃ n rest, m = more ++ n :: rest

theorem surveys_walkContents (h : b.Stands d) (depth : Nat) (hp : b.Spells p more)
    (found : ∀ l e, d.find true p = .ok (l, e) → l = b.location ++ more)
    (isDir : d.IsDir (b.location ++ more)) :
    b.Surveys d (StrictlyBelow more) (d.walkContents depth p) := by
  induction depth generalizing more p with
  | zero => exact .error _
  | succ depth ih =>
    unfold Disk.walkContents
    cases hlist : d.list p with
    | error fault => exact .error _
    | ok names =>
      have lists : d.Lists (b.location ++ more) names := by
        obtain ⟨l, e, hfind, -, rfl⟩ := Disk.of_list hlist
        exact found l e hfind ▸ h.tree.lists _
      have hchild : ∀ {n kind}, (n, kind) ∈ names →
          b.Spells (Tree.inside p n) (more ++ [n]) ∧
            d.kind? (b.location ++ (more ++ [n])) = some kind := by
        intro n kind hmem
        have hkind := (lists.mem_iff n kind).1 hmem
        refine ⟨hp.inside (h.tree.named (l := b.location ++ more) ?_), ?_⟩
        · intro hnone
          rw [hnone] at hkind
          cases hkind
        · rw [← List.append_assoc]
          exact hkind
      have hdown : ∀ {n}, (n, Kind.directory) ∈ names →
          b.Surveys d (StrictlyBelow (more ++ [n])) (d.walkContents depth (Tree.inside p n)) :=
        fun hmem =>
          have isDir' := Disk.kind?_eq_directory_iff.1 (hchild hmem).2
          ih (hchild hmem).1 ((hchild hmem).1.location_of_find h (by simp) isDir') isDir'
      constructor
      · intro q kind hq
        obtain ⟨⟨n, k⟩, hx, hmem⟩ := List.mem_flatMap.1 hq
        obtain heq | hmem := List.mem_cons.1 hmem
        · cases heq
          exact ⟨_, ⟨n, [], rfl⟩, hchild hx⟩
        · by_cases hdir : k = .directory
          · subst hdir
            obtain ⟨m, ⟨n', rest, rfl⟩, hm⟩ := (hdown hx).sound q kind hmem
            exact ⟨_, ⟨n, n' :: rest, by rw [List.append_assoc]; rfl⟩, hm⟩
          · simp only [if_neg hdir] at hmem
            cases hmem
      · rintro noError _ kind ⟨n, rest, rfl⟩ hkind
        cases rest with
        | nil =>
          have hmem : (n, kind) ∈ names := (lists.mem_iff n kind).2 (by
            rw [List.append_assoc]
            exact hkind)
          exact ⟨_, List.mem_flatMap.2 ⟨_, hmem, List.mem_cons_self⟩, (hchild hmem).1⟩
        | cons n' rest =>
          -- what is above is a directory, and its walk is a part of this one
          have isDir' : d.IsDir (b.location ++ more ++ [n]) := by
            have hbelow : d.node? (b.location ++ more ++ [n] ++ n' :: rest) ≠ none := by
              intro hnone
              rw [Disk.kind?, show b.location ++ (more ++ n :: n' :: rest) =
                b.location ++ more ++ [n] ++ n' :: rest by simp, hnone] at hkind
              cases hkind
            exact h.tree.isDir_of_append hbelow (List.cons_ne_nil _ _)
          have hmem : (n, Kind.directory) ∈ names :=
            (lists.mem_iff n _).2 (Disk.kind?_eq_directory_iff.2 isDir')
          have hpart : ∀ x ∈ d.walkContents depth (Tree.inside p n), x ∈ names.flatMap
              fun entry => .ok (Tree.inside p entry.1, entry.2) ::
                (if entry.2 = .directory then d.walkContents depth (Tree.inside p entry.1)
                  else []) :=
            fun x hx => List.mem_flatMap.2 ⟨_, hmem, List.mem_cons_of_mem _ hx⟩
          obtain ⟨q, hq, hspells⟩ := (hdown hmem).complete (fun e he => noError e (hpart _ he))
            _ kind ⟨n', rest, (List.append_cons ..)⟩ hkind
          exact ⟨q, hpart _ hq, hspells⟩

/-- A walk down from a directory. -/
theorem surveys_walkDown (h : b.Stands d) (hp : b.Spells p more)
    (looked : ∀ l e, d.lookAt p = .ok (l, e) → l = b.location ++ more)
    (isDir : d.IsDir (b.location ++ more)) :
    b.Surveys d (more <+: ·) (d.walkDown p) := by
  unfold Disk.walkDown
  cases hlook : d.lookAt p with
  | error fault => exact .error _
  | ok x =>
    obtain ⟨l, e⟩ := x
    obtain rfl := looked l e hlook
    have hnode : e.node = .directory :=
      Option.some.inj ((Disk.node?_of_get? (Disk.get?_of_lookAt hlook)).symm.trans isDir)
    have hfind := Disk.find_of_lookAt h.tree hlook (by rw [hnode]; nofun)
    have contents := surveys_walkContents h pathLimit hp (fun l' e' hfind' => by
      cases hfind.symm.trans hfind'
      rfl) isDir
    simp only [hnode, Node.kind]
    constructor
    · intro q kind hq
      obtain heq | hq := List.mem_cons.1 hq
      · cases heq
        exact ⟨more, List.prefix_rfl, hp, Disk.kind?_eq_directory_iff.2 isDir⟩
      · obtain ⟨_, ⟨n, rest, rfl⟩, hm⟩ := contents.sound q kind hq
        exact ⟨_, List.prefix_append _ _, hm⟩
    · rintro noError _ kind ⟨rest, rfl⟩ hkind
      cases rest with
      | nil =>
        rw [List.append_nil, Disk.kind?_eq_directory_iff.2 isDir] at hkind
        cases hkind
        exact ⟨p, List.mem_cons_self, by rwa [List.append_nil]⟩
      | cons n rest =>
        obtain ⟨q, hq, hspells⟩ := contents.complete
          (fun e he => noError e (List.mem_cons_of_mem _ he)) _ kind ⟨n, rest, rfl⟩ hkind
        exact ⟨q, List.mem_cons_of_mem _ hq, hspells⟩

/-! ## Stamping -/

/-- What is kept when entries below `more` are given a time: `J` says that the entries are of the
kinds that they have on `u`. -/
structure Timing (b : Base) (time : Time) (u : Disk) (more : Location) (J : Disk → Prop) : Prop where
  stands : ∀ d, J d → b.Stands d
  kinds : ∀ d, J d → ∀ m, more <+: m → d.kind? (b.location ++ m) = u.kind? (b.location ++ m)
  set : ∀ d m, J d → more <+: m → J (d.setTimesAt (b.location ++ m) time)

/-- The visit has been made: it found no error, and what it found has the time if it is of the
kind. -/
def Visited (b : Base) (kind : Kind) (time : Time) (d : Disk)
    (visit : Except WalkError (Path × Kind)) : Prop :=
  ∃ q k, visit = .ok (q, k) ∧ (k = kind → ∀ m, b.Spells q m → d.HasTime time (b.location ++ m))

/-- All entries of a kind have the time once each of them was given it. -/
theorem stampKind {J : Disk → Prop} (h : b.Timing time u more J) (hp : b.Spells p more)
    (hne : more ≠ []) (isDir : u.IsDir (b.location ++ more)) (hkind : kind ≠ .symlink) :
    Triple J (Tree.stampKind time kind p) fun _ d => J d ∧
      ∀ m, more <+: m → u.kind? (b.location ++ m) = some kind →
        d.HasTime time (b.location ++ m) := by
  unfold Tree.stampKind
  refine Triple.bind (Q := fun visits d => b.Surveys u (more <+: ·) visits ∧ J d) (Triple.ask ?_)
    fun visits => Triple.given (fun _ h => h.1) ?_
  · rintro d _ hd ⟨⟩
    have isDir' : d.IsDir (b.location ++ more) := by
      rw [← Disk.kind?_eq_directory_iff, h.kinds d hd _ List.prefix_rfl]
      exact Disk.kind?_eq_directory_iff.2 isDir
    exact ⟨(surveys_walkDown (h.stands d hd) hp
      (hp.location_of_find (h.stands d hd) hne isDir') isDir').congr fun m hm =>
      (h.kinds d hd m hm).symm, hd⟩
  intro surveys
  refine (Triple.forM (I := fun rest d => J d ∧ ∀ x ∈ visits, x ∈ rest ∨ b.Visited kind time d x)
    fun x rest hrest => ?_).mono (fun d h => ⟨h.2, fun x hx => .inl hx⟩) ?_
  · cases x with
    | error e => exact Triple.throw _
    | ok visit =>
      obtain ⟨q, k⟩ := visit
      have hmem : .ok (q, k) ∈ visits := hrest.subset List.mem_cons_self
      obtain ⟨m, hm, hspells, hk⟩ := surveys.sound q k hmem
      -- what was visited before keeps the time, and this visit adds itself
      have hnext : ∀ {d d' : Disk}, (∀ l, d.HasTime time l → d'.HasTime time l) →
          (k = kind → d'.HasTime time (b.location ++ m)) →
          (∀ x ∈ visits, x ∈ .ok (q, k) :: rest ∨ b.Visited kind time d x) →
          ∀ x ∈ visits, x ∈ rest ∨ b.Visited kind time d' x := by
        intro d d' hkeep hthis hall x hx
        obtain hx | ⟨q', k', rfl, hvisited⟩ := hall x hx
        · obtain rfl | hx := List.mem_cons.1 hx
          · exact .inr ⟨q, k, rfl, fun heq m' hm' => hspells.unique hm' ▸ hthis heq⟩
          · exact .inl hx
        · exact .inr ⟨q', k', rfl, fun heq m' hm' => hkeep _ (hvisited heq m' hm')⟩
      simp only
      split
      · next heq =>
        refine Triple.named (Triple.change fun t d d' hd hset => ?_) _ _
        obtain ⟨l, e, hfind, rfl⟩ := Disk.of_setTimes hset
        have hthere := hk
        rw [← h.kinds d hd.1 m hm] at hthere
        obtain ⟨node, hnode, hnodeKind⟩ := Option.map_eq_some_iff.1 hthere
        have hmne : m ≠ [] := by
          rintro rfl
          exact hne (List.prefix_nil.1 hm)
        have stands := h.stands d hd.1
        obtain ⟨rfl, -⟩ := hspells.get?_of_find stands hmne
          (stands.tree.openWay (Disk.node?_ne_none_of_eq hnode)) (.inr fun old hold => hkind (by
            rw [hnode] at hold
            cases hold
            rw [← heq, ← hnodeKind]
            rfl)) hfind
        exact ⟨h.set d m hd.1 hm, hnext (fun l hl => hl.setTimesAt _)
          (fun _ => Disk.hasTime_setTimesAt _ _ _) hd.2⟩
      · next hne =>
        exact Triple.pure fun d hd => ⟨hd.1, hnext (fun _ => id) (fun heq => absurd heq hne) hd.2⟩
  · rintro _ d ⟨hd, hall⟩
    have hvisited : ∀ x ∈ visits, b.Visited kind time d x :=
      fun x hx => (hall x hx).resolve_left List.not_mem_nil
    refine ⟨hd, fun m hm hk => ?_⟩
    have noError : ∀ e, .error e ∉ visits := by
      intro e he
      obtain ⟨q, k, heq, -⟩ := hvisited _ he
      cases heq
    obtain ⟨q, hq, hspells⟩ := surveys.complete noError m kind hm hk
    obtain ⟨q', k', heq, htime⟩ := hvisited _ hq
    cases heq
    exact htime rfl m hspells

end TwinTrees.Base
