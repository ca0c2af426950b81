import TwinTrees.Tree.Remove
import TwinTrees.Verb.Basic

/-!
# The progress of a test

A test is read, its environment is built, its commands are performed in order, and its directory is
removed. The first failure ends the test; a test that fails after its environment was built keeps
its directory for those who want to see what happened. The steps are small, so that tests which run
side by side can be interleaved between any two commands.
-/

namespace TwinTrees

/-- What all tests of a run have in common. -/
structure Run where
  /-- The directory below which the tests have theirs. -/
  root : Path
  registry : Registry Verb
  target : LogTarget
  workers : Nat

/-- How far a test has got. -/
inductive Progress
  | waiting
  | running (env : Environment) (commands : List (Script.Command Verb))
  | finished (outcome : Except RunError Unit)

/-- A test is named after its file. -/
def testName (file : Path) : String :=
  match file.fileName? with
  | some name => String.ofList name
  | none => file.text

/-- The commands in a file. -/
def readScript (registry : Registry Verb) (file : Path) :
    Action RunError (List (Script.Command Verb)) := do
  let text ← (Action.ask fun d => d.readText file).mapError (RunError.read file)
  Action.ask fun _ => (Script.parse registry file.text text).mapError .script

/-- Reads a test and builds its environment. -/
def Run.setUp (r : Run) (file : Path) :
    Action RunError (Environment × List (Script.Command Verb)) := do
  let commands ← readScript r.registry file
  let env ← Environment.build r.root (testName file) r.target r.workers
  env.write (.started env.root env.name)
  return (env, commands)

/-- Performs a command. All its arguments are expanded before it does anything. -/
def Environment.perform (env : Environment) (c : Script.Command Verb) : Action RunError Unit := do
  let arguments ← Action.ask fun _ => env.expandArguments c.handler.name c.arguments
  env.write (.command c.verb arguments c.line)
  (c.handler.body env arguments).mapError (RunError.command env.name c.handler.name)

/-- Removes the directory of a test that has passed. -/
def Environment.cleanUp (env : Environment) : Action RunError Unit := do
  env.write (.passed env.root)
  (Tree.remove env.root).mapError (RunError.cleanup env.name env.root)

namespace Progress

/-- One step of the test in a file. -/
def step (r : Run) (file : Path) : Progress → StateM World Progress
  | waiting => do
    match ← (r.setUp file).run with
    | .ok (env, commands) => return running env commands
    | .error e => return finished (.error e)
  | running env [] => return finished (← env.cleanUp.run)
  | running env (c :: rest) => do
    match ← (env.perform c).run with
    | .ok () => return running env rest
    | .error e =>
      let _ ← (env.write (ε := RunError) (.failed env.name e.message)).run
      return finished (.error e)
  | finished outcome => return finished outcome

/-- The outcome of a test that is over. -/
def outcome? : Progress → Option (Except RunError Unit)
  | finished outcome => some outcome
  | _ => none

/-- How much of a test there is to do, as far as that is known. How many commands there are is not
known before the file is read. -/
def rank : Progress → Nat × Nat
  | waiting => (1, 0)
  | running _ commands => (0, commands.length + 1)
  | finished _ => (0, 0)

theorem rank_step_lt (r : Run) (file : Path) (p : Progress) (w : World)
    (h : p.outcome? = none) :
    Prod.Lex (· < ·) (· < ·) (p.step r file w).1.rank p.rank := by
  match p with
  | waiting =>
    refine Prod.Lex.left _ _ ?_
    show (step r file waiting w).1.rank.1 < 1
    simp only [step, bind, StateT.bind, pure]
    cases (r.setUp file).run w with
    | mk x w =>
      cases x with
      | ok x => exact Nat.one_pos
      | error e => exact Nat.one_pos
  | running env [] => exact Prod.Lex.right _ (Nat.zero_lt_succ _)
  | running env (c :: rest) =>
    have h : (step r file (running env (c :: rest)) w).1.rank.1 = 0 ∧
        (step r file (running env (c :: rest)) w).1.rank.2 < rest.length + 1 + 1 := by
      simp only [step, bind, StateT.bind, pure]
      cases (env.perform c).run w with
      | mk x w =>
        cases x with
        | ok x => exact ⟨rfl, Nat.lt_succ_self _⟩
        | error e => exact ⟨rfl, Nat.zero_lt_succ _⟩
    rw [Prod.lex_def]
    exact .inr h
  | finished o => cases h

/-- The test in a file, from here to its end. -/
def toEnd (r : Run) (file : Path) (p : Progress) (w : World) : Except RunError Unit × World :=
  match _ : p.outcome? with
  | some outcome => (outcome, w)
  | none => toEnd r file (p.step r file w).1 (p.step r file w).2
  termination_by p.rank
  decreasing_by exact rank_step_lt r file p w (by assumption)

end Progress

/-- Runs the test in a file. -/
def Run.test (r : Run) (file : Path) : Action RunError Unit :=
  Progress.toEnd r file .waiting

end TwinTrees
