import TwinTrees.Proofs.Site.Trees
import TwinTrees.Proofs.Verb.Names

/-!
# Verbs at a site

Each verb agrees in all worlds that look the same to the test, if the names in its arguments are
local (`Agrees.verb`); so does a command (`Agrees.perform`). The handlers are those of
`Verb.standard`: a verb of another kind could do anything.
-/

namespace TwinTrees.Site

open Verb (sidedNames linkNames namesIn)

variable {s : Site} {times : Bool} {env₁ env₂ : Environment} {P : Disk → Disk → Prop}

namespace SameEnv

theorem side (h : s.SameEnv times env₁ env₂) (side : Side) : env₁.side side = env₂.side side := by
  cases side
  · exact h.lhs
  · exact h.rhs

theorem resolve (h : s.SameEnv times env₁ env₂) (side : Side) (name : String) :
    env₁.resolve side name = env₂.resolve side name := by
  unfold Environment.resolve
  rw [h.side]

theorem leads_resolve (h : s.SameEnv times env₁ env₂) (side : Side) {name : String}
    (hname : IsLocal name) : s.Leads (env₁.resolve side name) :=
  (h.leads side).join hname.relative hname.descends

theorem enters_resolve (h : s.SameEnv times env₁ env₂) (side : Side) {name : String}
    (hname : IsLocal name) (hne : name.toList ≠ []) : s.Enters (env₁.resolve side name) :=
  (h.leads side).enters_join hname.relative hname.descends (Path.steps_ne_nil hname.relative hne)

theorem expandArguments (h : s.SameEnv times env₁ env₂) :
    env₁.expandArguments = env₂.expandArguments :=
  Environment.expandArguments_congr h.name h.root h.lhs h.rhs

end SameEnv

namespace Agrees

/-- An action for each sided name. -/
theorem forEachSided {arguments : List String}
    {act₁ act₂ : Side → String → Action CommandError Unit}
    (h : ∀ side, ∀ name ∈ sidedNames arguments, name.toList ≠ [] →
      s.Agrees times env₁ env₂ Any (act₁ side name) (act₂ side name) Done) :
    s.Agrees times env₁ env₂ P (Verb.forEachSided arguments act₁)
      (Verb.forEachSided arguments act₂) Done := by
  refine (forM fun argument hargument => bindConst fun sided hread => ?_).anyway
  obtain ⟨side, names⟩ := sided
  exact forM fun name hname => h side name (Verb.mem_sidedNames hargument hread hname)
    (ne_empty_of_readSided hread hname)

/-! ## The verbs -/

theorem makeEntry {name : String} (hname : IsLocal name) (r : Verb.MakeRequest) :
    s.Agrees times env₁ env₂ P (Verb.makeEntry env₁ r name) (Verb.makeEntry env₂ r name) Done := by
  refine ofEnv fun henv => ?_
  have hp := henv.leads_resolve r.target.first hname
  unfold Verb.makeEntry
  simp only [← henv.resolve]
  split
  · exact (write _).bind fun _ _ => makeDirectory hp
  · refine bindEqual ?_ fun size => ?_
    · unfold Verb.drawSize
      split
      · exact (draw _).mono (fun _ _ h => h) fun _ _ _ _ h => h.1
      · exact pure fun _ _ _ => rfl
    · exact (write _).bind fun _ _ => makeFile hp size henv.start

theorem copyAcross {name : String} (hname : IsLocal name) :
    s.Agrees times env₁ env₂ P (Verb.copyAcross env₁ name) (Verb.copyAcross env₂ name) Done := by
  refine ofEnv fun henv => ?_
  unfold Verb.copyAcross
  simp only [← henv.resolve]
  exact (write _).bind fun _ _ => copyEntry (henv.leads_resolve .rhs hname)
    (henv.leads_resolve .lhs hname)

theorem make {arguments : List String} (hnames : ∀ name ∈ namesIn "mkfile" arguments, IsLocal name) :
    s.Agrees times env₁ env₂ P (Verb.make env₁ arguments) (Verb.make env₂ arguments) Done := by
  refine bindConst fun r hread => ?_
  have hlocal : ∀ name ∈ r.names, IsLocal name := fun name hname => hnames name (by
    unfold namesIn
    rw [hread]
    exact hname)
  refine (forM fun name hname => makeEntry (hlocal name hname) r).anyway.bind fun _ _ => ?_
  split
  · exact (forM fun name hname => copyAcross (hlocal name hname)).anyway
  · exact pure fun _ _ _ => trivial

theorem copyNamed {name : String} (hname : IsLocal name) :
    s.Agrees times env₁ env₂ P (Verb.copyNamed env₁ name) (Verb.copyNamed env₂ name) Done := by
  refine ofEnv fun henv => ?_
  have hsource := henv.leads_resolve .lhs hname
  have htarget := henv.leads_resolve .rhs hname
  unfold Verb.copyNamed
  simp only [← henv.resolve]
  refine bindConst fun _ _ => ?_
  refine ((lookAt hsource).named _ _).bind fun (l, a) (l', b) => given (fun _ _ => id) ?_
  rintro ⟨hshown, -⟩
  have hkind : a.node.kind = b.node.kind := Entry.kind_eq hshown
  simp only [hkind]
  refine (write _).bind fun _ _ => ?_
  split
  · exact copyTree htarget hsource
  · exact copyEntry htarget hsource

theorem copy {arguments : List String} (hnames : ∀ name ∈ namesIn "clone" arguments, IsLocal name) :
    s.Agrees times env₁ env₂ P (Verb.copy env₁ arguments) (Verb.copy env₂ arguments) Done := by
  unfold Verb.copy
  split
  · refine ofEnv fun henv => ?_
    rw [← henv.lhs, ← henv.rhs]
    exact (write _).bind fun _ _ => copyTree (henv.leads .rhs) (henv.leads .lhs)
  · exact (forM fun name hname => copyNamed (hnames name hname)).anyway

theorem linkEntry {pair : String} {pairs : List String} (hpair : pair ∈ pairs)
    (hnames : ∀ name ∈ linkNames pairs, IsLocal name) (side : Side) :
    s.Agrees times env₁ env₂ P (Verb.linkEntry env₁ side pair) (Verb.linkEntry env₂ side pair)
      Done := by
  refine ofEnv fun henv => bindConst fun names hread => ?_
  obtain ⟨new, old⟩ := names
  obtain ⟨hnew, hold⟩ := Verb.mem_linkNames hpair hread
  have hp := henv.leads_resolve side (hnames new hnew)
  have htarget := henv.leads_resolve side (hnames old hold)
  simp only [← henv.resolve]
  refine (makeParent hp).bind fun _ _ => (write _).bind fun _ _ => named (change ?_) _ _
  intro t₁ t₂ d₁ d₂ tw ht _
  exact (tw.makeLink hp htarget ht).mono fun _ _ h => ⟨h, trivial⟩

theorem link {arguments : List String}
    (hnames : ∀ name ∈ namesIn "symlink" arguments, IsLocal name) :
    s.Agrees times env₁ env₂ P (Verb.link env₁ arguments) (Verb.link env₂ arguments) Done := by
  unfold Verb.link
  split
  · exact throw _
  · exact forEachSided fun side pair hpair _ => linkEntry hpair hnames side

theorem removeEntry {name : String} (hname : IsLocal name) (hne : name.toList ≠ []) (side : Side) :
    s.Agrees times env₁ env₂ P (Verb.removeEntry env₁ side name) (Verb.removeEntry env₂ side name)
      Done := by
  refine ofEnv fun henv => ?_
  have hp := henv.enters_resolve side hname hne
  unfold Verb.removeEntry
  simp only [← henv.resolve]
  refine ((isThere hp.leads).named _ _).bindEqual fun there => ?_
  split
  · exact throw _
  refine (write _).bind fun _ _ => ?_
  refine ((lookAt hp.leads).named _ _).bind fun (l, a) (l', b) => given (fun _ _ => id) ?_
  rintro ⟨hshown, -⟩
  have hkind : a.node.kind = b.node.kind := Entry.kind_eq hshown
  refine named (change fun t₁ t₂ d₁ d₂ tw ht _ => ?_) _ _
  simp only [hkind]
  split
  · exact (tw.removeDirectory hp ht).mono fun _ _ h => ⟨h, trivial⟩
  · exact (tw.removeFile hp ht).mono fun _ _ h => ⟨h, trivial⟩

theorem remove {arguments : List String} (hnames : ∀ name ∈ namesIn "rm" arguments, IsLocal name) :
    s.Agrees times env₁ env₂ P (Verb.remove env₁ arguments) (Verb.remove env₂ arguments) Done := by
  unfold Verb.remove
  split
  · exact throw _
  · exact forEachSided fun side name hname hne => removeEntry (hnames name hname) hne side

theorem mutateEntry {name : String} (hname : IsLocal name) (min max : Nat) (side : Side) :
    s.Agrees times env₁ env₂ P (Verb.mutateEntry env₁ min max side name)
      (Verb.mutateEntry env₂ min max side name) Done := by
  refine ofEnv fun henv => ?_
  unfold Verb.mutateEntry
  simp only [← henv.resolve]
  exact (mutate (henv.leads_resolve side hname) min max).bindEqual fun m => write _

theorem mutateFiles {arguments : List String}
    (hnames : ∀ name ∈ namesIn "mutate" arguments, IsLocal name) :
    s.Agrees times env₁ env₂ P (Verb.mutate env₁ arguments) (Verb.mutate env₂ arguments) Done := by
  refine bindConst fun r hread => forEachSided fun side name hname _ => ?_
  refine mutateEntry (hnames name ?_) r.min r.max side
  unfold namesIn
  rw [hread]
  exact hname

theorem stampSides (verb : String) (arguments : List String) :
    s.Agrees times env₁ env₂ P (Verb.stamp verb env₁ arguments) (Verb.stamp verb env₂ arguments)
      Done := by
  refine ofEnv fun henv => ?_
  have hroots : ∀ p ∈ [env₁.lhs, env₁.rhs], s.Leads p := by
    intro p hp
    obtain rfl | hp := List.mem_cons.1 hp
    · exact henv.leads .lhs
    · cases List.mem_singleton.1 hp
      exact henv.leads .rhs
  unfold Verb.stamp
  rw [← henv.lhs, ← henv.rhs]
  split
  · exact (write _).bind fun _ _ => stampTrees hroots henv.start
  · exact stampTrees hroots henv.start

/-- Every verb of test scripts agrees on local names. -/
theorem verb {h : Handler Verb} (hmem : h ∈ Verb.standard.handlers) {arguments : List String}
    (hnames : ∀ name ∈ namesIn h.name arguments, IsLocal name) :
    s.Agrees times env₁ env₂ P (h.body env₁ arguments) (h.body env₂ arguments) Done := by
  simp only [Verb.standard, List.mem_cons, List.not_mem_nil, or_false] at hmem
  obtain rfl | rfl | rfl | rfl | rfl | rfl | rfl := hmem
  · exact make hnames
  · exact remove hnames
  · exact link hnames
  · exact stampSides "sync" arguments
  · exact stampSides "touch" arguments
  · exact mutateFiles hnames
  · exact copy hnames

/-- A command agrees if its names are local once its arguments are expanded. -/
theorem perform {c : Script.Command Verb} (hmem : c.handler ∈ Verb.standard.handlers)
    (hnames : ∀ arguments, env₁.expandArguments c.handler.name c.arguments = .ok arguments →
      ∀ name ∈ namesIn c.handler.name arguments, IsLocal name) :
    s.Agrees times env₁ env₂ P (env₁.perform c) (env₂.perform c) Done := by
  refine ofEnv fun henv => ?_
  unfold Environment.perform
  rw [← henv.expandArguments, ← henv.name]
  refine bindConst fun arguments hexpand => (write _).bind fun _ _ => ?_
  exact (verb hmem (hnames arguments hexpand)).mapError _

end Agrees

end TwinTrees.Site
