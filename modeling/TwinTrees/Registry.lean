import TwinTrees.Text.Quoted

/-!
# The registry of verbs

A registry maps each verb to the one handler registered for it. A verb is registered at most once:
a second registration is refused and changes nothing, so a look-up never changes its answer.
-/

namespace TwinTrees

/-- A named action. What the action is does not matter to the registry. -/
structure Handler (β : Type) where
  name : String
  body : β

/-- Handlers with pairwise distinct names, in the order of their registration. -/
structure Registry (β : Type) where
  handlers : List (Handler β)
  distinct : (handlers.map Handler.name).Nodup

/-- The verb that was to be registered a second time. -/
structure AlreadyRegistered where
  verb : String
  deriving DecidableEq, Repr

def AlreadyRegistered.message (e : AlreadyRegistered) : String :=
  s!"{e.verb}: command already registered"

namespace Registry

variable {β : Type}

/-- The registry without verbs. -/
def empty : Registry β := ⟨[], List.nodup_nil⟩

/-- The handler of a verb. -/
def lookup (r : Registry β) (verb : String) : Option (Handler β) :=
  r.handlers.find? fun h => h.name == verb

/-- Whether the verb has a handler. -/
def has (r : Registry β) (verb : String) : Bool :=
  (r.lookup verb).isSome

theorem lookup_eq_none_iff {r : Registry β} {verb : String} :
    r.lookup verb = none ↔ verb ∉ r.handlers.map Handler.name := by
  simp only [lookup, List.find?_eq_none, List.mem_map, not_exists, not_and, beq_iff_eq]

theorem name_of_lookup {r : Registry β} {verb : String} {h : Handler β}
    (found : r.lookup verb = some h) : h.name = verb := by
  simpa using List.find?_some found

/-- The registry with one more handler, unless its name is taken. -/
def register (r : Registry β) (h : Handler β) : Except AlreadyRegistered (Registry β) :=
  if free : r.lookup h.name = none then
    .ok {
      handlers := r.handlers ++ [h]
      distinct := by
        rw [List.map_append, List.nodup_append]
        refine ⟨r.distinct, by simp, fun a ha b hb => ?_⟩
        rw [List.map_singleton, List.mem_singleton] at hb
        rintro rfl
        exact lookup_eq_none_iff.1 free (hb ▸ ha) }
  else .error ⟨h.name⟩

/-- The number of verbs. -/
def size (r : Registry β) : Nat := r.handlers.length

/-- The verbs in increasing order. -/
def verbs (r : Registry β) : List String :=
  (r.handlers.map Handler.name).mergeSort fun a b => decide (a ≤ b)

/-- The registry as shown in a log. -/
def describe (r : Registry β) : String :=
  s!"CommandRegistry \x7b commands: {Text.quotedList r.verbs} \x7d"

end Registry

end TwinTrees
