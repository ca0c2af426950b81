import TwinTrees.Proofs.Script.Substitution
import TwinTrees.Proofs.Site.SetUp
import TwinTrees.Proofs.Text.Basic

/-!
# Arguments with the paths of a test

A name can be written below a placeholder for a directory of the test, as in `lhs=$LHS/n` or in
`new@$RHS/n`. The value of the placeholder is put in before the argument is cut at white space and at
the `@`, so that what the argument means depends on the path of the test: it is one name exactly if
that path has no white space, a link is divided where it was written exactly if that path has no `@`
or stands after the `@` only, and the name is the one below the directory if the path is absolute
(`placeholders_name_paths`, `path_breaks_argument`).
-/

namespace TwinTrees

/-! ## Cutting texts -/

namespace Text

variable {s word : List Char}

/-- The reading of words from the right: the word that is begun, and the words after it. -/
theorem foldr_of_noBlank (h : ∀ c ∈ s, isBlank c = false) : s.foldr
    (fun c (word, words) =>
      if isBlank c then ([], if word.isEmpty then words else word :: words) else (c :: word, words))
    (([], []) : List Char × List (List Char)) = (s, []) := by
  induction s with
  | nil => rfl
  | cons c s ih =>
    rw [List.foldr_cons, ih fun d hd => h d (List.mem_cons_of_mem c hd)]
    simp only [h c List.mem_cons_self, if_neg Bool.false_ne_true]

/-- A text without white space is one word. -/
theorem blankSeparated_of_noBlank (h : ∀ c ∈ s, isBlank c = false) (hne : s ≠ []) :
    blankSeparated s = [s] := by
  have hempty : s.isEmpty = false := Bool.eq_false_iff.2 fun h => hne (List.isEmpty_iff.1 h)
  unfold blankSeparated
  rw [foldr_of_noBlank h]
  simp only [hempty, if_neg Bool.false_ne_true]

/-- No word has white space in it. -/
theorem noBlank_of_mem_blankSeparated (h : word ∈ blankSeparated s) :
    ∀ c ∈ word, isBlank c = false := by
  obtain ⟨first, words, hwords, hs⟩ := blankSeparated_induction
    (P := fun first words => ∀ word ∈ first :: words, ∀ c ∈ word, isBlank c = false)
    (by simp)
    (by
      intro first words ih word hword
      obtain rfl | hword := List.mem_cons.1 hword
      · exact List.forall_mem_nil _
      · obtain ⟨rfl, -⟩ | hword := eq_or_mem_of_isEmpty hword
        · exact ih word List.mem_cons_self
        · exact ih word (List.mem_cons_of_mem _ hword))
    (by
      intro c first words hc ih word hword
      obtain rfl | hword := List.mem_cons.1 hword
      · exact List.forall_mem_cons.2 ⟨hc, ih first List.mem_cons_self⟩
      · exact ih word (List.mem_cons_of_mem _ hword))
    s
  rw [hs] at h
  obtain ⟨rfl, -⟩ | h := eq_or_mem_of_isEmpty h
  · exact hwords word List.mem_cons_self
  · exact hwords word (List.mem_cons_of_mem _ h)

end Text

/-- No white space is in the text. -/
def HasNoBlank (s : String) : Prop := ∀ c ∈ s.toList, Text.isBlank c = false

instance (s : String) : Decidable (HasNoBlank s) :=
  List.decidableBAll (fun c => Text.isBlank c = false) s.toList

theorem hasNoBlank_append {s t : String} : HasNoBlank (s ++ t) ↔ HasNoBlank s ∧ HasNoBlank t := by
  simp only [HasNoBlank, String.toList_append, List.mem_append, or_imp, forall_and]

/-- An argument of one side gives the words of its text. -/
theorem readSided_eq (side : Side) (text : String) : readSided (side.name ++ "=" ++ text) =
    match Text.blankSeparated text.toList with
    | [] => .error (.invalidArgument (.noNames side))
    | names => .ok (side, names.map String.ofList) := by
  have hsplit : Text.splitFirst? '=' (side.name ++ "=" ++ text).toList =
      some (side.name.toList, text.toList) := by
    rw [String.toList_append, String.toList_append, List.append_assoc]
    exact Text.splitFirst?_append (by cases side <;> decide) _
  have hside : Side.ofString? (String.ofList side.name.toList) = .ok side := by
    cases side <;> rfl
  unfold readSided
  rw [hsplit]
  simp only [hside]
  rfl

/-- An argument of one side is one name exactly if there is no white space in it. -/
theorem readSided_eq_single_iff {side : Side} {text : String} (hne : text ≠ "") :
    readSided (side.name ++ "=" ++ text) = .ok (side, [text]) ↔ HasNoBlank text := by
  have htext : text.toList ≠ [] := fun h => hne (String.toList_eq_nil_iff.1 h)
  rw [readSided_eq]
  refine ⟨fun h => ?_, fun h => ?_⟩
  · cases hwords : Text.blankSeparated text.toList with
    | nil => rw [hwords] at h; cases h
    | cons word words =>
      rw [hwords] at h
      obtain ⟨-, hnames⟩ := Prod.mk.inj (Except.ok.inj h)
      have hword : String.ofList word = text := List.head_eq_of_cons_eq hnames
      intro c hc
      rw [← hword, String.toList_ofList] at hc
      exact Text.noBlank_of_mem_blankSeparated (hwords ▸ List.mem_cons_self) c hc
  · rw [Text.blankSeparated_of_noBlank h htext]
    simp only [List.map_cons, String.ofList_toList, List.map_nil]

/-- A link is divided between its names exactly if there is no `@` in the first of them. -/
theorem readLink_eq_iff {new old : String} (hnew : new ≠ "") (hold : old ≠ "") :
    Verb.readLink (new ++ "@" ++ old) = .ok (new, old) ↔ '@' ∉ new.toList := by
  have htext : (new ++ "@" ++ old).toList = new.toList ++ '@' :: old.toList := by
    rw [String.toList_append, String.toList_append, List.append_assoc]
    rfl
  obtain ⟨c, rest, hnew⟩ :=
    List.exists_cons_of_ne_nil fun h => hnew (String.toList_eq_nil_iff.1 h)
  obtain ⟨c', rest', hold⟩ :=
    List.exists_cons_of_ne_nil fun h => hold (String.toList_eq_nil_iff.1 h)
  unfold Verb.readLink
  rw [htext]
  refine ⟨fun h => ?_, fun h => ?_⟩
  · split at h
    · next hsplit =>
      obtain ⟨hword, -⟩ := Prod.mk.inj (Except.ok.inj h)
      rw [← hword, String.toList_ofList]
      exact Text.not_mem_of_splitFirst? hsplit
    · cases h
  · rw [Text.splitFirst?_append h, hnew, hold]
    simp only
    rw [← hnew, ← hold, String.ofList_toList, String.ofList_toList]

/-! ## Joining paths -/

namespace Path

theorem components_of_absolute {p : Path} {body : List Char} (h : p.text.toList = '/' :: body) :
    p.components = .root :: (Text.splitAll '/' body).filterMap componentOf := by
  have habs : p.isAbsolute = true := isAbsolute_eq_true_iff.2 ⟨body, h⟩
  have hsegments : p.segments = (Text.splitAll '/' body).map fun s => (s, componentOf s) := by
    unfold segments
    rw [h]
    rfl
  unfold components
  rw [habs, if_pos rfl, hsegments, List.filterMap_map]
  rfl

theorem join_of_absolute (p : Path) {q : Path} (absolute : q.isAbsolute = true) : p.join q = q := by
  unfold join
  rw [if_pos absolute]

theorem isAbsolute_append {p : Path} (absolute : p.isAbsolute = true) (s : String) :
    (Path.mk (p.text ++ s)).isAbsolute = true := by
  obtain ⟨body, hbody⟩ := isAbsolute_eq_true_iff.1 absolute
  refine isAbsolute_eq_true_iff.2 ⟨body ++ s.toList, ?_⟩
  rw [String.toList_append, hbody]
  rfl

/-- A name after a slash is joined to an absolute path, however many slashes there are. -/
theorem components_append {p : Path} {name : String} (absolute : p.isAbsolute = true)
    (relative : (Path.mk name).isAbsolute = false) :
    (Path.mk (p.text ++ "/" ++ name)).components = (p.join ⟨name⟩).components := by
  have htext : (p.text ++ "/" ++ name).toList = p.text.toList ++ '/' :: name.toList := by
    rw [String.toList_append, String.toList_append, List.append_assoc]
    rfl
  obtain ⟨body, hbody⟩ := isAbsolute_eq_true_iff.1 absolute
  obtain ⟨a, ha, hjoin⟩ | ⟨hnil, -⟩ | ⟨-, hjoin⟩ := join_text (p := p) relative
  · -- Between two slashes there is no component.
    cases a with
    | nil =>
      have hleft : (Path.mk (p.text ++ "/" ++ name)).text.toList = '/' :: ('/' :: name.toList) := by
        rw [htext, ha]
        rfl
      rw [components_of_absolute hleft, components_of_absolute hjoin, Text.splitAll, if_pos rfl,
        List.filterMap_cons]
      rfl
    | cons c a =>
      obtain ⟨rfl, -⟩ := List.cons.inj (ha.symm.trans hbody)
      have hleft : (Path.mk (p.text ++ "/" ++ name)).text.toList =
          '/' :: (a ++ '/' :: ('/' :: name.toList)) := by
        rw [htext, ha]
        simp
      rw [List.cons_append] at hjoin
      rw [components_of_absolute hleft, components_of_absolute hjoin, Text.splitAll_append_sep,
        Text.splitAll_append_sep, Text.splitAll, if_pos rfl, List.filterMap_append,
        List.filterMap_append, List.filterMap_cons]
      rfl
  · rw [hnil] at hbody
    cases hbody
  · have hsame : Path.mk (p.text ++ "/" ++ name) = p.join ⟨name⟩ :=
      congrArg Path.mk (String.ext (htext.trans hjoin.symm))
    rw [hsame]

/-- The characters of a joined path are those of the paths, and slashes. -/
theorem mem_join {p q : Path} (relative : q.isAbsolute = false) {c : Char} (hc : c ≠ '/') :
    c ∈ (p.join q).text.toList ↔ c ∈ p.text.toList ∨ c ∈ q.text.toList := by
  obtain ⟨a, ha, h⟩ | ⟨hnil, h⟩ | ⟨-, h⟩ := join_text (p := p) relative
  · rw [h, ha]
    simp [hc]
  · rw [h, hnil]
    simp
  · rw [h]
    simp [hc]

end Path

/-! ## Names below placeholders -/

/-- The directories of a test that have placeholders. -/
inductive Place
  | lhs
  | rhs
  | root
  deriving DecidableEq, Repr

/-- The name of the placeholder. -/
def Place.name : Place → String
  | lhs => "LHS"
  | rhs => "RHS"
  | root => "ROOT"

/-- The directory that the placeholder stands for. -/
def Environment.place (env : Environment) : Place → Path
  | .lhs => env.lhs
  | .rhs => env.rhs
  | .root => env.root

/-- The name is not empty, relative, and has no white space, dollar sign or `@`. -/
structure IsPlain (name : String) : Prop where
  nonempty : name ≠ ""
  relative : (Path.mk name).isAbsolute = false
  noBlank : HasNoBlank name
  noDollar : '$' ∉ name.toList
  noAt : '@' ∉ name.toList

instance : DecidablePred IsPlain := fun name =>
  decidable_of_iff (name ≠ "" ∧ (Path.mk name).isAbsolute = false ∧ HasNoBlank name ∧
      '$' ∉ name.toList ∧ '@' ∉ name.toList)
    ⟨fun ⟨nonempty, relative, noBlank, noDollar, noAt⟩ =>
        ⟨nonempty, relative, noBlank, noDollar, noAt⟩,
      fun h => ⟨h.nonempty, h.relative, h.noBlank, h.noDollar, h.noAt⟩⟩

/-- A name as it is written in a script. -/
inductive Written
  | plain (name : String)
  | below (place : Place) (name : String)
  deriving DecidableEq, Repr

namespace Written

/-- The name itself, without the placeholder. -/
def name : Written → String
  | plain name | below _ name => name

def text : Written → String
  | plain name => name
  | below place name => "$" ++ place.name ++ "/" ++ name

/-- What the name is once the placeholder is replaced. -/
def value (env : Environment) : Written → String
  | plain name => name
  | below place name => (env.place place).text ++ "/" ++ name

theorem value_ne_empty {env : Environment} {x : Written} (h : IsPlain x.name) :
    x.value env ≠ "" := by
  intro hempty
  have hnil : (x.value env).toList = [] := String.toList_eq_nil_iff.2 hempty
  cases x with
  | plain name => exact h.nonempty hempty
  | below place name => simp [value] at hnil

end Written

namespace Script

variable {lookup : String → Option String}

theorem expandString_append {s : String} (h : '$' ∉ s.toList) (t : String) :
    expandString lookup (s ++ t) = s ++ expandString lookup t := by
  have hexpand (value : List Char → List Char) (a b : List Char) (h : '$' ∉ a) :
      expand value (a ++ b) = a ++ expand value b := by
    induction a with
    | nil => rfl
    | cons c a ih =>
      obtain ⟨hc, ha⟩ := List.ne_and_not_mem_of_not_mem_cons h
      rw [List.cons_append, expand_of_ne _ fun heq => hc heq.symm, ih ha]
      rfl
  unfold expandString
  rw [String.toList_append, hexpand _ _ _ h, String.ofList_append, String.ofList_toList]

/-- The placeholder of a directory ends at the slash. -/
theorem expandString_place (env : Environment) (place : Place) (s : String) :
    expandString env.value? ("$" ++ place.name ++ ("/" ++ s)) =
      (env.place place).text ++ ("/" ++ expandString env.value? s) := by
  have hidentifier : IsIdentifier place.name := by
    cases place
    · exact ⟨'L', ['H', 'S'], rfl, by decide, List.all_eq_true.1 rfl⟩
    · exact ⟨'R', ['H', 'S'], rfl, by decide, List.all_eq_true.1 rfl⟩
    · exact ⟨'R', ['O', 'O', 'T'], rfl, by decide, List.all_eq_true.1 rfl⟩
  have hslash : ∀ c ∈ ("/" ++ s).toList.head?, isNameChar c = false := by
    intro c hc
    rw [String.toList_append] at hc
    cases hc
    decide
  have hvalue : valueIn env.value? place.name = (env.place place).text := by cases place <;> rfl
  rw [(substitutes_expandString env.value?).name _ _ hidentifier hslash, hvalue,
    expandString_append (by decide)]

theorem expandString_written (env : Environment) {x : Written} (h : IsPlain x.name) (s : String) :
    expandString env.value? (x.text ++ s) = x.value env ++ expandString env.value? s := by
  cases x with
  | plain name => exact expandString_append h.noDollar s
  | below place name =>
    have htext : (Written.below place name).text ++ s =
        "$" ++ place.name ++ ("/" ++ (name ++ s)) := by
      simp only [Written.text, String.append_assoc]
    have hname : '$' ∉ name.toList := h.noDollar
    rw [htext, expandString_place, expandString_append hname, Written.value, String.append_assoc,
      String.append_assoc]

theorem expandString_text (env : Environment) {x : Written} (h : IsPlain x.name) :
    expandString env.value? x.text = x.value env := by
  have hempty := expandString_written env h ""
  rwa [String.append_empty, (substitutes_expandString _).empty, String.append_empty] at hempty

theorem expandString_sided (side : Side) (s : String) :
    expandString lookup (side.name ++ "=" ++ s) = side.name ++ "=" ++ expandString lookup s :=
  expandString_append (by cases side <;> decide) s

end Script

/-! ## The paths of a test -/

namespace Environment

variable {runRoot : Path} {name : String} {workers : Nat} {start : Time} {sink : LogSink}
  {place : Place} {c : Char}

theorem place_inside : (inside runRoot name workers start sink).place place =
    match place with
    | .lhs => (runRoot.join ⟨name⟩).join ⟨Side.lhs.name⟩
    | .rhs => (runRoot.join ⟨name⟩).join ⟨Side.rhs.name⟩
    | .root => runRoot.join ⟨name⟩ := by
  cases place <;> rfl

theorem isAbsolute_place : ((inside runRoot name workers start sink).place place).isAbsolute =
    (runRoot.join ⟨name⟩).isAbsolute := by
  rw [place_inside]
  cases place with
  | lhs | rhs => exact Path.isAbsolute_join (by decide)
  | root => rfl

/-- What can be in the path of a test is in the paths of its sides if it is not one of their
letters. -/
theorem mem_place (hslash : c ≠ '/') (hlhs : c ∉ Side.lhs.name.toList)
    (hrhs : c ∉ Side.rhs.name.toList) :
    c ∈ ((inside runRoot name workers start sink).place place).text.toList ↔
      c ∈ (runRoot.join ⟨name⟩).text.toList := by
  rw [place_inside]
  cases place with
  | lhs => exact (Path.mem_join (by decide) hslash).trans (or_iff_left hlhs)
  | rhs => exact (Path.mem_join (by decide) hslash).trans (or_iff_left hrhs)
  | root => exact Iff.rfl

theorem hasNoBlank_place :
    HasNoBlank ((inside runRoot name workers start sink).place place).text ↔
      HasNoBlank (runRoot.join ⟨name⟩).text := by
  -- The letters of the sides and slashes are no white space.
  have hmem : ∀ c, Text.isBlank c = true →
      (c ∈ ((inside runRoot name workers start sink).place place).text.toList ↔
        c ∈ (runRoot.join ⟨name⟩).text.toList) := by
    intro c hc
    refine mem_place ?_ ?_ ?_
    · rintro rfl
      exact absurd hc (by decide)
    all_goals
      intro hside
      simp only [Side.name, List.mem_cons, List.not_mem_nil, or_false,
        show "lhs".toList = ['l', 'h', 's'] from rfl,
        show "rhs".toList = ['r', 'h', 's'] from rfl] at hside
      obtain rfl | rfl | rfl := hside <;> exact absurd hc (by decide)
  refine forall_congr' fun c => ?_
  cases hc : Text.isBlank c with
  | false => simp
  | true => rw [hmem c hc]

variable {x : Written}

theorem hasNoBlank_value (plain : IsPlain x.name)
    (h : HasNoBlank (runRoot.join ⟨name⟩).text) :
    HasNoBlank (x.value (inside runRoot name workers start sink)) := by
  cases x with
  | plain n => exact plain.noBlank
  | below place n =>
    refine hasNoBlank_append.2 ⟨hasNoBlank_append.2 ⟨?_, by decide⟩, plain.noBlank⟩
    exact hasNoBlank_place.2 h

theorem not_mem_value_iff (plain : IsPlain x.name) :
    '@' ∉ (x.value (inside runRoot name workers start sink)).toList ↔
      x = .plain x.name ∨ '@' ∉ (runRoot.join ⟨name⟩).text.toList := by
  cases x with
  | plain n => exact iff_of_true plain.noAt (.inl rfl)
  | below place n =>
    have hname : '@' ∉ n.toList := plain.noAt
    have hplace : '@' ∈ ((inside runRoot name workers start sink).place place).text.toList ↔
        '@' ∈ (runRoot.join ⟨name⟩).text.toList :=
      mem_place (by decide) (by decide) (by decide)
    have hvalue : '@' ∈ ((Written.below place n).value
        (inside runRoot name workers start sink)).toList ↔
        '@' ∈ (runRoot.join ⟨name⟩).text.toList := by
      rw [Written.value, String.toList_append, String.toList_append, List.mem_append,
        List.mem_append, hplace, or_iff_left hname]
      exact or_iff_left (by decide)
    rw [hvalue]
    exact (or_iff_right nofun).symm

end Environment

/-- Placeholders in arguments name the directories of a test. An argument of its own is the name
below the directory. An argument of one side is that one name exactly if the path of the test has no
white space, and if that path is absolute, the name is found below the directory, on whichever side.
A link is divided at the `@` between its names exactly if there is no placeholder before it or no `@`
in the path of the test. -/
theorem placeholders_name_paths {runRoot : Path} {name : String} {target : LogTarget}
    {workers : Nat} {env : Environment} {w w' : World}
    (built : (Environment.build runRoot name target workers).run w = (.ok env, w')) :
    (∀ place n, IsPlain n →
      let path := (env.place place).text ++ "/" ++ n
      Script.expandString env.value? ("$" ++ place.name ++ "/" ++ n) = path ∧
      ∀ side : Side,
        (readSided (Script.expandString env.value?
            (side.name ++ "=" ++ ("$" ++ place.name ++ "/" ++ n))) = .ok (side, [path]) ↔
          HasNoBlank (runRoot.join ⟨name⟩).text) ∧
        ((runRoot.join ⟨name⟩).isAbsolute = true →
          (env.resolve side path).components = ((env.place place).join ⟨n⟩).components)) ∧
    ∀ (side : Side) (new old : Written), IsPlain new.name → IsPlain old.name →
      (HasNoBlank (runRoot.join ⟨name⟩).text →
        readSided (Script.expandString env.value?
            (side.name ++ "=" ++ (new.text ++ "@" ++ old.text))) =
          .ok (side, [new.value env ++ "@" ++ old.value env])) ∧
      (Verb.readLink (new.value env ++ "@" ++ old.value env) =
          .ok (new.value env, old.value env) ↔
        new = .plain new.name ∨ '@' ∉ (runRoot.join ⟨name⟩).text.toList) := by
  obtain ⟨start, sink, rfl⟩ := Environment.of_build built
  refine ⟨fun place n plain => ?_, fun side new old hnew hold => ⟨fun noBlank => ?_, ?_⟩⟩
  · have hexpand : Script.expandString (Environment.inside runRoot name workers start sink).value?
        ("$" ++ place.name ++ "/" ++ n) = _ := Script.expandString_text _ (x := .below place n) plain
    refine ⟨hexpand, fun side => ⟨?_, fun absolute => ?_⟩⟩
    · have hne : (Written.below place n).value (.inside runRoot name workers start sink) ≠ "" :=
        Written.value_ne_empty plain
      rw [Script.expandString_sided, hexpand]
      refine (readSided_eq_single_iff hne).trans (hasNoBlank_append.trans ?_)
      refine (and_iff_left plain.noBlank).trans (hasNoBlank_append.trans ?_)
      exact (and_iff_left (by decide)).trans Environment.hasNoBlank_place
    · have absolute : ((Environment.inside runRoot name workers start sink).place
          place).isAbsolute = true := Environment.isAbsolute_place.trans absolute
      have habsolute := Path.isAbsolute_append (Path.isAbsolute_append absolute "/") n
      unfold Environment.resolve
      rw [Path.join_of_absolute _ habsolute]
      exact Path.components_append absolute plain.relative
  · have hexpand : Script.expandString (Environment.inside runRoot name workers start sink).value?
        (new.text ++ "@" ++ old.text) =
          new.value (.inside runRoot name workers start sink) ++ "@" ++
            old.value (.inside runRoot name workers start sink) := by
      rw [String.append_assoc, Script.expandString_written _ hnew,
        Script.expandString_append (by decide), Script.expandString_text _ hold,
        String.append_assoc]
    have hne : new.value (.inside runRoot name workers start sink) ++ "@" ++
        old.value (.inside runRoot name workers start sink) ≠ "" := by
      intro hempty
      have hnil := String.toList_eq_nil_iff.2 hempty
      simp at hnil
    rw [Script.expandString_sided, hexpand]
    refine (readSided_eq_single_iff hne).2 (hasNoBlank_append.2 ⟨hasNoBlank_append.2 ⟨?_, ?_⟩, ?_⟩)
    · exact Environment.hasNoBlank_value hnew noBlank
    · decide
    · exact Environment.hasNoBlank_value hold noBlank
  · refine (readLink_eq_iff ?_ ?_).trans (Environment.not_mem_value_iff hnew)
    · exact Written.value_ne_empty hnew
    · exact Written.value_ne_empty hold

/-- A file below the left side, named in an argument of each side and as the end of a link. -/
theorem placeholders_name_plain_paths :
    let entry : Node → Entry := fun node => ⟨node, 0o755, ⟨0, 0⟩, ⟨0, 0⟩⟩
    let w : World := ⟨⟨⟨[([], entry .directory)], 1, []⟩, []⟩, .seeded 0, fun n => ⟨n, 0⟩, 0⟩
    ∃ env w', (Environment.build ⟨"/run"⟩ "a.t" .console 1).run w = (.ok env, w') ∧
      IsPlain "d/f" ∧
      (∀ side : Side,
        readSided (Script.expandString env.value? (side.name ++ "=" ++ "$LHS/d/f")) =
          .ok (side, ["/run/a.t/lhs/d/f"]) ∧
        (env.resolve side "/run/a.t/lhs/d/f").components =
          (Path.mk "/run/a.t/lhs/d/f").components) ∧
      readSided (Script.expandString env.value? "rhs=$LHS/l@$RHS/d/f") =
        .ok (.rhs, ["/run/a.t/lhs/l@/run/a.t/rhs/d/f"]) ∧
      Verb.readLink "/run/a.t/lhs/l@/run/a.t/rhs/d/f" =
        .ok ("/run/a.t/lhs/l", "/run/a.t/rhs/d/f") := by
  intro entry w
  have hok : ((Environment.build ⟨"/run"⟩ "a.t" .console 1).run w).1 =
      .ok (.inside ⟨"/run"⟩ "a.t" 1 ⟨4, 0⟩ .console) := eq_ok_of_toOption (by decide +kernel)
  generalize built : (Environment.build ⟨"/run"⟩ "a.t" .console 1).run w = x at hok
  obtain ⟨x, w'⟩ := x
  obtain rfl := hok
  have plain : IsPlain "d/f" := by decide
  obtain ⟨own, links⟩ := placeholders_name_paths built
  have below := (own .lhs "d/f" plain).2
  have link := links .rhs (.below .lhs "l") (.below .rhs "d/f") (by decide) plain
  refine ⟨_, w', rfl, plain, fun side => ⟨?_, ?_⟩, ?_, ?_⟩
  · exact (below side).1.2 (by decide)
  · exact (below side).2 (by decide)
  · exact link.1 (by decide)
  · exact link.2.2 (.inr (by decide))

/-- The path of a test has a space, a link is divided at the `@` of the path, and a relative run root
is not where the side is. -/
theorem path_breaks_argument :
    let entry : Node → Entry := fun node => ⟨node, 0o755, ⟨0, 0⟩, ⟨0, 0⟩⟩
    let w : World := ⟨⟨⟨[([], entry .directory)], 1, []⟩, []⟩, .seeded 0, fun n => ⟨n, 0⟩, 0⟩
    let build := fun runRoot name =>
      ((Environment.build ⟨runRoot⟩ name .console 1).run w).1.toOption
    IsPlain "f" ∧
      (∃ env, build "/run" "a b.t" = some env ∧
        readSided (Script.expandString env.value? "lhs=$LHS/f") =
          .ok (.lhs, ["/run/a", "b.t/lhs/f"])) ∧
      (∃ env, build "/run" "a@b.t" = some env ∧
        readSided (Script.expandString env.value? "lhs=$LHS/f@f") =
          .ok (.lhs, ["/run/a@b.t/lhs/f@f"]) ∧
        Verb.readLink "/run/a@b.t/lhs/f@f" = .ok ("/run/a", "b.t/lhs/f@f")) ∧
      ∃ env, build "run" "a.t" = some env ∧
        readSided (Script.expandString env.value? "lhs=$LHS/f") =
          .ok (.lhs, ["run/a.t/lhs/f"]) ∧
        (env.resolve .lhs "run/a.t/lhs/f").components ≠ (env.lhs.join ⟨"f"⟩).components := by
  intro entry w build
  refine ⟨by decide, ⟨.inside ⟨"/run"⟩ "a b.t" 1 ⟨4, 0⟩ .console, ?_, ?_⟩,
    ⟨.inside ⟨"/run"⟩ "a@b.t" 1 ⟨4, 0⟩ .console, ?_, ?_, ?_⟩,
    .inside ⟨"run"⟩ "a.t" 1 ⟨4, 0⟩ .console, ?_, ?_, ?_⟩
  all_goals decide +kernel

end TwinTrees
