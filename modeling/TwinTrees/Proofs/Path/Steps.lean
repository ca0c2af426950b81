import Mathlib.Data.List.Basic
import Mathlib.Data.List.TakeWhile
import TwinTrees.Disk.Route

/-!
# The steps of joined paths and of parents

What a path means to a walk is its list of steps. Joining paths appends their steps (`steps_join`),
and the parent of a path has the steps before the last one that is not a `.` (`steps_parent`). The
texts are split at slashes, so both rest on what splitting does to texts that are put together.
-/

namespace TwinTrees

namespace Text

theorem splitAll_ne_nil (sep : Char) (s : List Char) : splitAll sep s ≠ [] := by
  cases s with
  | nil => exact List.cons_ne_nil _ _
  | cons c rest =>
    rw [splitAll]
    split
    · exact List.cons_ne_nil _ _
    · split <;> exact List.cons_ne_nil _ _

theorem splitAll_append_sep (sep : Char) (a b : List Char) :
    splitAll sep (a ++ sep :: b) = splitAll sep a ++ splitAll sep b := by
  induction a with
  | nil => simp [splitAll]
  | cons c a ih =>
    rw [List.cons_append, splitAll, splitAll, ih]
    split
    · rfl
    · cases h : splitAll sep a with
      | nil => exact absurd h (splitAll_ne_nil sep a)
      | cons piece pieces => rfl

theorem splitAll_of_not_mem {sep : Char} {s : List Char} (h : sep ∉ s) :
    splitAll sep s = [s] := by
  induction s with
  | nil => rfl
  | cons c s ih =>
    rw [List.mem_cons, not_or] at h
    rw [splitAll, if_neg (fun hc => h.1 hc.symm), ih h.2]

/-- No piece holds the separator. -/
theorem not_mem_of_mem_splitAll {sep : Char} {s piece : List Char}
    (h : piece ∈ splitAll sep s) : sep ∉ piece := by
  induction s generalizing piece with
  | nil =>
    rw [splitAll, List.mem_singleton] at h
    rw [h]
    exact List.not_mem_nil
  | cons c s ih =>
    rw [splitAll] at h
    split at h
    · obtain rfl | h := List.mem_cons.1 h
      · exact List.not_mem_nil
      · exact ih h
    · next hc =>
      cases hs : splitAll sep s with
      | nil => exact absurd hs (splitAll_ne_nil sep s)
      | cons first rest =>
        rw [hs] at h ih
        obtain rfl | h := List.mem_cons.1 h
        · rw [List.mem_cons, not_or]
          exact ⟨fun heq => hc heq.symm, ih List.mem_cons_self⟩
        · exact ih (List.mem_cons_of_mem first h)

/-- Pieces that are put together with separators are found again. -/
theorem splitAll_intercalate {sep : Char} {pieces : List (List Char)} (hne : pieces ≠ [])
    (h : ∀ piece ∈ pieces, sep ∉ piece) :
    splitAll sep ([sep].intercalate pieces) = pieces := by
  induction pieces with
  | nil => exact absurd rfl hne
  | cons piece pieces ih =>
    have hpiece := h piece List.mem_cons_self
    cases pieces with
    | nil => rw [List.intercalate_singleton]; exact splitAll_of_not_mem hpiece
    | cons next rest =>
      rw [List.intercalate_cons_cons, List.append_assoc, List.singleton_append,
        splitAll_append_sep, splitAll_of_not_mem hpiece,
        ih (List.cons_ne_nil _ _) fun p hp => h p (List.mem_cons_of_mem piece hp)]
      rfl

/-- A text is put together again from its pieces. -/
theorem intercalate_splitAll (sep : Char) (s : List Char) :
    [sep].intercalate (splitAll sep s) = s := by
  induction s with
  | nil => rfl
  | cons c s ih =>
    obtain ⟨piece, pieces, hs⟩ := List.exists_cons_of_ne_nil (splitAll_ne_nil sep s)
    rw [hs] at ih
    rw [splitAll, hs]
    split
    · next hc =>
      rw [List.intercalate_cons_cons, ih, hc]
      rfl
    · cases pieces with
      | nil =>
        rw [List.intercalate_singleton] at ih
        rw [ih]
        exact List.intercalate_singleton
      | cons next rest =>
        rw [List.intercalate_cons_cons] at ih
        rw [← ih]
        exact List.intercalate_cons_cons

/-- The first pieces are at the start of the text of all. -/
theorem intercalate_prefix (sep : Char) (front rest : List (List Char)) :
    [sep].intercalate front <+: [sep].intercalate (front ++ rest) := by
  induction front with
  | nil => exact List.nil_prefix
  | cons piece front ih =>
    cases front with
    | nil =>
      cases rest with
      | nil => simp
      | cons next rest =>
        rw [List.intercalate_singleton, List.singleton_append, List.intercalate_cons_cons,
          List.append_assoc]
        exact List.prefix_append _ _
    | cons next front =>
      rw [List.cons_append] at ih
      rw [List.cons_append, List.cons_append, List.intercalate_cons_cons,
        List.intercalate_cons_cons]
      exact (List.prefix_append_right_inj _).2 ih

end Text

/-- What an entry can be called: one step down, in a name that is not too long. -/
structure IsName (n : Name) : Prop where
  step : Step.of? n = some (.name n)
  noSlash : '/' ∉ n
  short : isTooLong n = false

instance : DecidablePred IsName := fun n =>
  decidable_of_iff (Step.of? n = some (.name n) ∧ '/' ∉ n ∧ isTooLong n = false)
    ⟨fun ⟨step, noSlash, short⟩ => ⟨step, noSlash, short⟩,
      fun h => ⟨h.step, h.noSlash, h.short⟩⟩

/-- The step leads to the directory itself or down to something that can be called so. -/
def Step.IsDown : Step → Prop
  | .here => True
  | .up => False
  | .name n => Step.of? n = some (.name n) ∧ '/' ∉ n

/-- The steps stay below where they start. -/
def Descends (steps : List Step) : Prop := ∀ st ∈ steps, st.IsDown

theorem Descends.append {s t : List Step} (hs : Descends s) (ht : Descends t) :
    Descends (s ++ t) := fun st h => (List.mem_append.1 h).elim (hs st) (ht st)

theorem Descends.tail {st : Step} {s : List Step} (h : Descends (st :: s)) : Descends s :=
  fun t ht => h t (List.mem_cons_of_mem st ht)

/-- The name of a step, if it is one. -/
def Step.name? : Step → Option Name
  | .name n => some n
  | _ => none

/-- The names among steps; where the steps lead if none of them leads up. -/
def stepNames (steps : List Step) : Location := steps.filterMap Step.name?

theorem stepNames_map_name (l : Location) : stepNames (l.map Step.name) = l := by
  unfold stepNames
  rw [List.filterMap_map]
  exact List.filterMap_some

theorem Descends.names (l : Location) (h : ∀ n ∈ l, IsName n) : Descends (l.map Step.name) := by
  intro st hst
  obtain ⟨n, hn, rfl⟩ := List.mem_map.1 hst
  exact ⟨(h n hn).step, (h n hn).noSlash⟩

theorem IsName.isDown {n : Name} (h : IsName n) : (Step.name n).IsDown := ⟨h.step, h.noSlash⟩

theorem Step.of?_eq_name {segment : List Char} {n : Name}
    (h : Step.of? segment = some (.name n)) : segment = n ∧ segment ≠ [] := by
  unfold Step.of? at h
  split at h
  · cases h
  · next hne =>
    split at h
    · cases h
    · split at h
      · cases h
      · cases h
        exact ⟨rfl, by simpa using hne⟩

namespace Path

theorem mem_steps_name {p : Path} {n : Name} (h : .name n ∈ p.steps) :
    Step.of? n = some (.name n) ∧ '/' ∉ n := by
  obtain ⟨segment, hmem, hstep⟩ := List.mem_filterMap.1 h
  obtain ⟨rfl, -⟩ := Step.of?_eq_name hstep
  exact ⟨hstep, Text.not_mem_of_mem_splitAll hmem⟩

/-- A path descends if it has no `..`. -/
theorem descends_iff {p : Path} : Descends p.steps ↔ .up ∉ p.steps := by
  refine ⟨fun h hup => h .up hup, fun h st hst => ?_⟩
  cases st with
  | here => trivial
  | up => exact h hst
  | name n => exact mem_steps_name hst

theorem isAbsolute_eq_true_iff {p : Path} :
    p.isAbsolute = true ↔ ∃ body, p.text.toList = '/' :: body := by
  rw [isAbsolute]
  cases p.text.toList with
  | nil => simp
  | cons c rest => simp

/-- A path is the root, or is relative, or its text goes on after a slash. -/
theorem join_text {p q : Path} (hq : q.isAbsolute = false) :
    (∃ a, p.text.toList = a ++ ['/'] ∧ (p.join q).text.toList = a ++ '/' :: q.text.toList) ∨
    (p.text.toList = [] ∧ (p.join q).text.toList = q.text.toList) ∨
    (p.text.toList ≠ [] ∧ (p.join q).text.toList = p.text.toList ++ '/' :: q.text.toList) := by
  unfold join
  rw [if_neg (by simp [hq])]
  cases hlast : p.text.toList.getLast? with
  | none =>
    have hnil : p.text.toList = [] := List.getLast?_eq_none_iff.1 hlast
    refine .inr (.inl ⟨hnil, ?_⟩)
    simp [hnil]
  | some c =>
    obtain ⟨a, ha⟩ := List.getLast?_eq_some_iff.1 hlast
    by_cases hc : c = '/'
    · subst hc
      refine .inl ⟨a, ha, ?_⟩
      simp [ha]
    · refine .inr (.inr ⟨by rw [ha]; simp, ?_⟩)
      simp [hc]

/-- What is joined to a path comes after it. -/
theorem text_prefix_join {p q : Path} (relative : q.isAbsolute = false) :
    p.text.toList <+: (p.join q).text.toList := by
  obtain ⟨a, hp, hj⟩ | ⟨hp, -⟩ | ⟨-, hj⟩ := join_text (p := p) relative
  · rw [hj, List.append_cons, hp]
    exact List.prefix_append _ _
  · rw [hp]
    exact List.nil_prefix
  · rw [hj]
    exact List.prefix_append _ _

/-- Joining appends the steps. -/
theorem steps_join {p q : Path} (hq : q.isAbsolute = false) :
    (p.join q).steps = p.steps ++ q.steps := by
  unfold steps
  obtain ⟨a, ha, hj⟩ | ⟨hp, hj⟩ | ⟨-, hj⟩ := join_text (p := p) hq
  · rw [hj, ha, Text.splitAll_append_sep, Text.splitAll_append_sep, List.filterMap_append,
      List.filterMap_append]
    simp [Text.splitAll, Step.of?]
  · rw [hj, hp]
    simp [Text.splitAll, Step.of?]
  · rw [hj, Text.splitAll_append_sep, List.filterMap_append]

/-- A slash at the end is no step. -/
theorem steps_withSlash (p : Path) : (p.join ⟨""⟩).steps = p.steps :=
  (steps_join rfl).trans (List.append_nil _)

theorem isAbsolute_join {p q : Path} (hq : q.isAbsolute = false) :
    (p.join q).isAbsolute = p.isAbsolute := by
  have hhead : ∀ {s t : List Char}, s ≠ [] → (s ++ t).head? = s.head? := by
    intro s t hs
    cases s with
    | nil => exact absurd rfl hs
    | cons c s => rfl
  unfold isAbsolute at hq ⊢
  obtain ⟨a, ha, hj⟩ | ⟨hnil, hj⟩ | ⟨hne, hj⟩ := join_text (p := p) hq
  · rw [hj, ha]
    cases a <;> rfl
  · rw [hj, hnil]
    exact hq
  · rw [hj, hhead hne]

theorem text_ne_nil_of_mem_steps {p : Path} {st : Step} (h : st ∈ p.steps) :
    p.text.toList ≠ [] := by
  intro hnil
  simp [steps, hnil, Text.splitAll, Step.of?] at h

/-- A path with steps is not empty. -/
theorem text_isEmpty_eq_false {p : Path} {st : Step} (h : st ∈ p.steps) :
    p.text.isEmpty = false := by
  rw [Bool.eq_false_iff]
  intro hempty
  exact text_ne_nil_of_mem_steps h (String.toList_eq_nil_iff.2 (String.isEmpty_iff.1 hempty))

/-- A name by itself is one step down. -/
theorem steps_name {n : Name} (h : IsName n) : (Path.mk (String.ofList n)).steps = [.name n] := by
  unfold steps
  rw [String.toList_ofList, Text.splitAll_of_not_mem h.noSlash]
  simp [h.step]

theorem isAbsolute_name {n : Name} (h : '/' ∉ n) :
    (Path.mk (String.ofList n)).isAbsolute = false := by
  rw [Bool.eq_false_iff]
  intro habs
  obtain ⟨body, hbody⟩ := isAbsolute_eq_true_iff.1 habs
  rw [String.toList_ofList] at hbody
  rw [hbody] at h
  exact h List.mem_cons_self

theorem isAbsolute_of_isName {name : String} (h : IsName name.toList) :
    (Path.mk name).isAbsolute = false := by
  simpa using isAbsolute_name h.noSlash

/-- Joining a name is one step down. -/
theorem steps_join_name {p : Path} {name : String} (h : IsName name.toList) :
    (p.join ⟨name⟩).steps = p.steps ++ [.name name.toList] := by
  rw [steps_join (isAbsolute_of_isName h)]
  exact congrArg _ (by simpa using steps_name h)

theorem text_isEmpty_join {p : Path} {name : String} (isName : IsName name.toList) :
    (p.join ⟨name⟩).text.isEmpty = false := by
  have last : Step.name name.toList ∈ (p.join ⟨name⟩).steps := by simp [steps_join_name isName]
  exact text_isEmpty_eq_false last

theorem text_isEmpty_join_empty {p : Path} (nonempty : p.text.isEmpty = false) :
    (p.join ⟨""⟩).text.isEmpty = false := by
  obtain ⟨rest, hrest⟩ := text_prefix_join (p := p) (q := ⟨""⟩) rfl
  rw [Bool.eq_false_iff, ne_eq, String.isEmpty_iff, ← String.toList_eq_nil_iff, ← hrest,
    List.append_eq_nil_iff, String.toList_eq_nil_iff, ← String.isEmpty_iff, nonempty]
  simp

/-- What is joined to a path says whether it ends in a slash. -/
theorem endsInSlash_join_eq {p q : Path} (hq : q.isAbsolute = false) (hne : q.text.toList ≠ []) :
    (p.join q).endsInSlash = q.endsInSlash := by
  unfold endsInSlash
  obtain ⟨a, -, h⟩ | ⟨-, h⟩ | ⟨-, h⟩ := join_text (p := p) hq
  · rw [h, List.append_cons, List.getLast?_append_of_ne_nil _ hne]
  · rw [h]
  · rw [h, List.append_cons, List.getLast?_append_of_ne_nil _ hne]

/-- Nothing joined to a path puts a slash at its end. -/
theorem endsInSlash_join_empty {p : Path} (hne : p.text.isEmpty = false) :
    (p.join ⟨""⟩).endsInSlash = true := by
  unfold endsInSlash
  obtain ⟨a, -, h⟩ | ⟨hnil, -⟩ | ⟨-, h⟩ := join_text (p := p) (q := ⟨""⟩) rfl
  · rw [h]; simp
  · rw [String.toList_eq_nil_iff.1 hnil] at hne; cases hne
  · rw [h]; simp

/-- A path does not end in a slash once a name was joined to it. -/
theorem endsInSlash_join {p : Path} {name : String} (hn : IsName name.toList) :
    (p.join ⟨name⟩).endsInSlash = false := by
  have hne : name.toList ≠ [] := by
    intro hnil
    have hstep := hn.step
    rw [hnil] at hstep
    cases hstep
  rw [endsInSlash_join_eq (isAbsolute_of_isName hn) hne, endsInSlash,
    beq_eq_false_iff_ne]
  exact fun hslash => hn.noSlash (List.mem_of_getLast? hslash)

/-! ## Parents -/

/-- A segment without a component is no step or a `.`. -/
theorem step_of_componentOf_eq_none {segment : List Char} (h : componentOf segment = none) :
    Step.of? segment = none ∨ Step.of? segment = some .here := by
  unfold componentOf at h
  split at h
  · next hs =>
    obtain rfl | rfl := hs
    · exact .inl rfl
    · exact .inr rfl
  · split at h <;> cases h

theorem step_of_componentOf_eq_some {segment : List Char} {c : Component}
    (h : componentOf segment = some c) : ∃ st, Step.of? segment = some st ∧ st ≠ .here := by
  unfold componentOf at h
  split at h
  · cases h
  · next hs =>
    rw [not_or] at hs
    unfold Step.of?
    rw [if_neg (by simpa using hs.1), if_neg hs.2]
    split
    · exact ⟨.up, rfl, nofun⟩
    · exact ⟨.name segment, rfl, nofun⟩

/-- The components of segments are their own, except for a `.` at the start. -/
theorem component_of_mem_segments {p : Path} {x : List Char × Option Component}
    (h : x ∈ p.segments) : x.2 = componentOf x.1 ∨ x.1 = ['.'] ∧ x.2 = some .here := by
  unfold segments at h
  split at h
  · obtain ⟨s, -, rfl⟩ := List.mem_map.1 h
    exact .inl rfl
  · split at h
    · cases h
    · obtain rfl | h := List.mem_cons.1 h
      · simp only
        split
        · next hdot => exact .inr ⟨hdot, rfl⟩
        · exact .inl rfl
      · obtain ⟨s, -, rfl⟩ := List.mem_map.1 h
        exact .inl rfl

/-- What the segments of a path are: pieces of its text, with the steps they stand for. Only the
first one of a relative path can be a `.` with a component. -/
theorem segments_spec (p : Path) :
    p.steps = (p.segments.map Prod.fst).filterMap Step.of? ∧
    (∀ x ∈ p.segments, '/' ∉ x.1) ∧
    (∀ x ∈ p.segments, x.2 = none → Step.of? x.1 = none ∨ Step.of? x.1 = some .here) ∧
    (∀ x ∈ p.segments.tail, x.2 ≠ none → ∃ st, Step.of? x.1 = some st ∧ st ≠ .here) ∧
    ∀ x ∈ p.segments.head?, x.2 ≠ none →
      (∃ st, Step.of? x.1 = some st ∧ st ≠ .here) ∨ Step.of? x.1 = some .here := by
  have hsome : ∀ s : List Char, componentOf s ≠ none →
      ∃ st, Step.of? s = some st ∧ st ≠ .here := by
    intro s hs
    obtain ⟨c, hc⟩ := Option.ne_none_iff_exists'.1 hs
    exact step_of_componentOf_eq_some hc
  unfold steps segments
  split
  · next body hbody =>
    have hsplit : Text.splitAll '/' ('/' :: body) = [] :: Text.splitAll '/' body := by
      simp [Text.splitAll]
    rw [hbody, hsplit]
    refine ⟨?_, ?_, ?_, ?_, ?_⟩
    · rw [List.filterMap_cons, List.map_map]
      simp [Step.of?, Function.comp_def]
    all_goals intro x hx
    · obtain ⟨s, hs, rfl⟩ := List.mem_map.1 hx
      exact Text.not_mem_of_mem_splitAll hs
    · obtain ⟨s, hs, rfl⟩ := List.mem_map.1 hx
      exact step_of_componentOf_eq_none
    · obtain ⟨s, hs, rfl⟩ := List.mem_map.1 (List.mem_of_mem_tail hx)
      exact hsome s
    · obtain ⟨s, hs, rfl⟩ := List.mem_map.1 (List.mem_of_mem_head? hx)
      exact fun h => .inl (hsome s h)
  · cases hsplit : Text.splitAll '/' p.text.toList with
    | nil => exact absurd hsplit (Text.splitAll_ne_nil _ _)
    | cons first rest =>
      have hmem : ∀ s ∈ first :: rest, '/' ∉ s := fun s hs =>
        Text.not_mem_of_mem_splitAll (hsplit ▸ hs)
      refine ⟨?_, ?_, ?_, ?_, ?_⟩
      · rw [List.map_cons, List.map_map]
        simp [Function.comp_def]
      all_goals intro x hx
      · obtain rfl | hx := List.mem_cons.1 hx
        · exact hmem first List.mem_cons_self
        · obtain ⟨s, hs, rfl⟩ := List.mem_map.1 hx
          exact hmem s (List.mem_cons_of_mem first hs)
      · obtain rfl | hx := List.mem_cons.1 hx
        · intro hnone
          simp only at hnone
          split at hnone
          · cases hnone
          · exact step_of_componentOf_eq_none hnone
        · obtain ⟨s, hs, rfl⟩ := List.mem_map.1 hx
          exact step_of_componentOf_eq_none
      · obtain ⟨s, hs, rfl⟩ := List.mem_map.1 (by simpa using hx)
        exact hsome s
      · cases hx
        intro hne
        simp only at hne ⊢
        split at hne
        · next hdot => rw [hdot]; exact .inr rfl
        · exact .inl (hsome first hne)

theorem ofSegments_text (absolute : Bool) (pieces : List (List Char)) :
    (ofSegments absolute pieces).text.toList =
      (if absolute then ['/'] else []) ++ ['/'].intercalate pieces := by
  unfold ofSegments
  rw [String.toList_append, String.toList_intercalate, List.map_map]
  have hmap : pieces.map (String.toList ∘ String.ofList) = pieces := by
    simp [Function.comp_def]
  rw [hmap]
  cases absolute <;> rfl

theorem steps_ofSegments (absolute : Bool) {pieces : List (List Char)}
    (h : ∀ piece ∈ pieces, '/' ∉ piece) :
    (ofSegments absolute pieces).steps = pieces.filterMap Step.of? := by
  have hsplit : (Text.splitAll '/' (['/'].intercalate pieces)).filterMap Step.of? =
      pieces.filterMap Step.of? := by
    cases pieces with
    | nil => rfl
    | cons piece pieces => rw [Text.splitAll_intercalate (List.cons_ne_nil _ _) h]
  unfold steps
  rw [ofSegments_text]
  cases absolute with
  | false => exact hsplit
  | true =>
    rw [if_pos rfl, List.singleton_append, Text.splitAll, if_pos rfl, List.filterMap_cons, hsplit]
    rfl

/-- What is cut off a list from its end up to an element that does not satisfy `f`. -/
theorem eq_append_of_dropWhile_reverse {α : Type} {f : α → Bool} {l before : List α} {x : α}
    (h : l.reverse.dropWhile f = x :: before) :
    f x = false ∧ ∃ cut, (∀ y ∈ cut, f y = true) ∧ l = before.reverse ++ x :: cut := by
  refine ⟨?_, (l.reverse.takeWhile f).reverse, fun y hy => ?_, ?_⟩
  · have := List.head?_dropWhile_not f l.reverse
    rw [h] at this
    simpa using this
  · exact List.mem_takeWhile_imp (List.mem_reverse.1 hy)
  · have := congrArg List.reverse (List.takeWhile_append_dropWhile (p := f) (l := l.reverse))
    rw [h, List.reverse_append, List.reverse_reverse, List.reverse_cons] at this
    simpa using this.symm

/-- A list is what is left when its end is cut off, and the end. -/
theorem eq_dropWhile_append {α : Type} (f : α → Bool) (l : List α) :
    ∃ cut, (∀ y ∈ cut, f y = true) ∧ l.reverse = (l.dropWhile f).reverse ++ cut := by
  refine ⟨(l.takeWhile f).reverse, fun y hy => List.mem_takeWhile_imp (List.mem_reverse.1 hy), ?_⟩
  rw [← List.reverse_append, List.takeWhile_append_dropWhile]

/-- The segments of a path are those of its parent, a last one with a component, and segments
without a component before it and after it. -/
theorem segments_parent {p q : Path} (h : p.parent? = some q) :
    ∃ front before x after, q = ofSegments p.isAbsolute (front.map Prod.fst) ∧
      p.segments = (front ++ before) ++ x :: after ∧ x.2 ≠ none ∧
      (∀ y ∈ before, y.2 = none) ∧ ∀ y ∈ after, y.2 = none := by
  simp only [parent?] at h
  split at h
  · cases h
  · next x trimmed htrimmed =>
    cases h
    obtain ⟨hx, after, hafter, hsplit⟩ := eq_append_of_dropWhile_reverse htrimmed
    obtain ⟨before, hbefore, hsplit'⟩ := eq_dropWhile_append (·.2.isNone) trimmed
    rw [hsplit'] at hsplit
    exact ⟨_, before, x, after, rfl, hsplit, by simpa [Option.isSome_iff_ne_none] using hx,
      fun y hy => Option.isNone_iff_eq_none.1 (hbefore y hy),
      fun y hy => Option.isNone_iff_eq_none.1 (hafter y hy)⟩

/-- The text of a path is that of its segments. -/
theorem text_eq_intercalate (p : Path) :
    p.text.toList = (if p.isAbsolute then ['/'] else []) ++
      ['/'].intercalate (p.segments.map Prod.fst) := by
  cases habs : p.isAbsolute with
  | true =>
    obtain ⟨body, hbody⟩ := isAbsolute_eq_true_iff.1 habs
    have hpieces : p.segments.map Prod.fst = Text.splitAll '/' body := by
      simp [segments, hbody, Function.comp_def]
    rw [hpieces, Text.intercalate_splitAll, hbody, if_pos rfl]
    rfl
  | false =>
    have hpieces : p.segments.map Prod.fst = Text.splitAll '/' p.text.toList := by
      unfold segments
      split
      · next body hbody =>
        rw [isAbsolute, hbody] at habs
        cases habs
      · cases hsplit : Text.splitAll '/' p.text.toList with
        | nil => rfl
        | cons first rest => simp [Function.comp_def]
    rw [hpieces, Text.intercalate_splitAll, if_neg Bool.false_ne_true]
    rfl

/-- The text of the parent is at the start of that of the path. -/
theorem text_parent {p q : Path} (h : p.parent? = some q) : q.text.toList <+: p.text.toList := by
  obtain ⟨front, before, x, after, rfl, hsplit, -⟩ := segments_parent h
  rw [ofSegments_text, text_eq_intercalate p, hsplit, List.append_assoc, List.map_append]
  exact (List.prefix_append_right_inj _).2 (Text.intercalate_prefix _ _ _)

/-- The parent has the steps before the last one that leads anywhere. -/
theorem steps_parent {p q : Path} (h : p.parent? = some q) :
    ∃ before st after, p.steps = (q.steps ++ before) ++ st :: after ∧
      (∀ x ∈ before, x = .here) ∧ (∀ x ∈ after, x = .here) ∧
      (st ≠ .here ∨ ∀ x ∈ p.steps, x = .here) := by
  obtain ⟨hsteps, hslash, hnone, htail, hhead⟩ := segments_spec p
  obtain ⟨front, before, x, after, rfl, hsplit, hx, hbefore, hafter⟩ := segments_parent h
  have hhere : ∀ xs : List (List Char × Option Component),
      (∀ x ∈ xs, x ∈ p.segments ∧ x.2 = none) →
      ∀ st ∈ (xs.map Prod.fst).filterMap Step.of?, st = .here := by
    intro xs hxs st hst
    obtain ⟨s, hs, hof⟩ := List.mem_filterMap.1 hst
    obtain ⟨x, hx, rfl⟩ := List.mem_map.1 hs
    obtain h | h := hnone x (hxs x hx).1 (hxs x hx).2
    · rw [h] at hof; cases hof
    · rw [h] at hof; cases hof; rfl
  have hheres := hhere before fun y hy => ⟨by rw [hsplit]; simp [hy], hbefore y hy⟩
  have hheres' := hhere after fun y hy => ⟨by rw [hsplit]; simp [hy], hafter y hy⟩
  have hpieces : ∀ piece ∈ front.map Prod.fst, '/' ∉ piece := by
    intro piece hpiece
    obtain ⟨y, hy, rfl⟩ := List.mem_map.1 hpiece
    exact hslash y (by rw [hsplit]; simp [hy])
  have hq := steps_ofSegments p.isAbsolute hpieces
  have hlast : ∃ st, Step.of? x.1 = some st ∧ (st ≠ .here ∨ st = .here ∧ front ++ before = []) := by
    cases hfront : front ++ before with
    | cons y rest =>
      obtain ⟨st, hst, hne⟩ := htail x (by rw [hsplit, hfront]; simp) hx
      exact ⟨st, hst, .inl hne⟩
    | nil =>
      obtain ⟨st, hst, hne⟩ | hst := hhead x (by rw [hsplit, hfront]; rfl) hx
      · exact ⟨st, hst, .inl hne⟩
      · exact ⟨.here, hst, .inr ⟨rfl, rfl⟩⟩
  obtain ⟨st, hst, hne⟩ := hlast
  refine ⟨_, st, _, ?_, hheres, hheres', ?_⟩
  · rw [hsteps, hq, hsplit]
    simp [List.filterMap_append, hst]
  · obtain hne | ⟨rfl, hfront⟩ := hne
    · exact .inl hne
    · refine .inr fun y hy => ?_
      rw [hsteps, hsplit, hfront] at hy
      simp only [List.nil_append, List.map_cons, List.filterMap_cons, hst] at hy
      obtain rfl | hy := List.mem_cons.1 hy
      · rfl
      · exact hheres' y hy

theorem isAbsolute_ofSegments (pieces : List (List Char)) :
    (ofSegments true pieces).isAbsolute = true := by
  rw [isAbsolute_eq_true_iff, ofSegments_text]
  exact ⟨_, rfl⟩

theorem isAbsolute_ofSegments_of_head {pieces : List (List Char)}
    (h : ∀ piece ∈ pieces.head?, piece ≠ [] ∧ '/' ∉ piece) :
    (ofSegments false pieces).isAbsolute = false := by
  rw [Bool.eq_false_iff]
  intro habs
  obtain ⟨body, hbody⟩ := isAbsolute_eq_true_iff.1 habs
  rw [ofSegments_text] at hbody
  cases pieces with
  | nil => cases hbody
  | cons piece pieces =>
    obtain ⟨hne, hslash⟩ := h piece rfl
    obtain ⟨c, rest, rfl⟩ := List.exists_cons_of_ne_nil hne
    have hc : c = '/' := by
      cases pieces with
      | nil => rw [List.intercalate_singleton] at hbody; exact (List.cons.inj hbody).1
      | cons next pieces => rw [List.intercalate_cons_cons] at hbody; exact (List.cons.inj hbody).1
    exact hslash (hc ▸ List.mem_cons_self)

/-- The first segment of a relative path is not empty, unless the path is. -/
theorem head_segments_ne_nil {p : Path} (hrel : p.isAbsolute = false)
    (hne : p.text.toList ≠ []) : ∀ x ∈ p.segments.head?, x.1 ≠ [] := by
  obtain ⟨c, rest, htext⟩ := List.exists_cons_of_ne_nil hne
  have hc : c ≠ '/' := by
    rintro rfl
    rw [isAbsolute, htext] at hrel
    cases hrel
  have hfirst : ∃ piece pieces, Text.splitAll '/' p.text.toList = (c :: piece) :: pieces := by
    rw [htext, Text.splitAll, if_neg hc]
    split <;> exact ⟨_, _, rfl⟩
  obtain ⟨piece, pieces, hsplit⟩ := hfirst
  intro x hx
  unfold segments at hx
  split at hx
  · next body hbody => rw [htext] at hbody; exact absurd (List.cons.inj hbody).1 hc
  · rw [hsplit] at hx
    cases hx
    exact List.cons_ne_nil _ _

theorem isAbsolute_parent {p q : Path} (h : p.parent? = some q) :
    q.isAbsolute = p.isAbsolute := by
  obtain ⟨front, before, x, after, rfl, hsplit, hx, -, -⟩ := segments_parent h
  cases habs : p.isAbsolute with
  | true => exact isAbsolute_ofSegments _
  | false =>
    refine isAbsolute_ofSegments_of_head fun piece hpiece => ?_
    have hslash := (segments_spec p).2.1
    cases front with
    | nil => cases hpiece
    | cons y front =>
      cases hpiece
      have hne : p.text.toList ≠ [] := by
        intro hnil
        have : p.segments.length ≤ 1 := by
          simp [segments, hnil, Text.splitAll]
        rw [hsplit] at this
        simp at this
      exact ⟨head_segments_ne_nil habs hne y (by rw [hsplit]; rfl),
        hslash y (by rw [hsplit]; simp)⟩

/-- A path that goes only the first steps of another one. -/
theorem exists_steps_eq {p : Path} {before : List Step} (h : before <+: p.steps) :
    ∃ q : Path, q.isAbsolute = p.isAbsolute ∧ q.steps = before := by
  let piece : Step → List Char
    | .here => ['.']
    | .up => ['.', '.']
    | .name n => n
  have hpiece : ∀ st ∈ before, Step.of? (piece st) = some st ∧ '/' ∉ piece st := by
    intro st hst
    cases st with
    | here => exact ⟨rfl, by decide⟩
    | up => exact ⟨rfl, by decide⟩
    | name n => exact mem_steps_name (h.subset hst)
  have hslash : ∀ x ∈ before.map piece, '/' ∉ x := by
    simpa using fun st hst => (hpiece st hst).2
  have hsteps : (before.map piece).filterMap Step.of? = before := by
    rw [List.filterMap_map]
    calc before.filterMap (Step.of? ∘ piece) = before.filterMap some :=
          List.filterMap_congr fun st hst => (hpiece st hst).1
      _ = before := List.filterMap_some
  refine ⟨ofSegments p.isAbsolute (before.map piece), ?_, (steps_ofSegments _ hslash).trans hsteps⟩
  cases p.isAbsolute with
  | true => exact isAbsolute_ofSegments _
  | false =>
    refine isAbsolute_ofSegments_of_head fun x hx => ?_
    obtain ⟨st, hst, rfl⟩ := List.mem_map.1 (List.mem_of_mem_head? hx)
    refine ⟨?_, (hpiece st hst).2⟩
    intro hnil
    have hstep := (hpiece st hst).1
    rw [hnil] at hstep
    cases hstep

end Path

end TwinTrees
