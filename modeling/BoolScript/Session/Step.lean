import BoolScript.Script

/-!
# Sessions step by step

A session may be led through a sequence of steps: scripts and trees to evaluate, and changes to its
variables and its mode from outside. Every step is reported with its outcome, the bytes that it
wrote, how far the input has been read since the session began, and the variables after it. The
session goes on after a step that fails.
-/

namespace BoolScript

/-- What can be done in a session. -/
inductive Step where
  /-- Runs a script. -/
  | script (rule : Rule) (source : String)
  /-- Evaluates a tree. -/
  | eval (tree : Expr)
  /-- Evaluates trees one after the other. -/
  | evalAll (trees : List Expr)
  /-- Chooses what `not` negates. -/
  | setNotMode (mode : NotMode)
  /-- Gives a name a value from outside. -/
  | insert (name : String) (value : Bool)
  /-- Takes the value of a name away. -/
  | erase (name : String)
  deriving DecidableEq, Repr, Inhabited

/-- What comes of a step. -/
inductive Outcome where
  /-- An evaluation ended with this value, if any. -/
  | value (value : Option Bool)
  /-- An evaluation failed. -/
  | failure (error : ScriptError)
  /-- The step has nothing to answer. -/
  | done
  /-- The variables were changed, and this was the value of the name before. -/
  | previous (value : Option Bool)
  deriving DecidableEq, Repr, Inhabited

/-- What is reported of a step. -/
structure Report where
  outcome : Outcome
  /-- The bytes that the step wrote. -/
  written : Array UInt8
  /-- How many bytes of the input have been read since the session began. -/
  consumed : Nat
  /-- The variables after the step. -/
  bindings : Bindings
  deriving DecidableEq, Repr, Inhabited

namespace Session

/-- The outcome of an evaluation, and the session after it. -/
private def concluded {ε : Type} (wrap : ε → ScriptError) :
    EStateM.Result ε Session (Option Bool) → Outcome × Session
  | .ok value session => (.value value, session)
  | .error error session => (.failure (wrap error), session)

/-- Does a step. -/
def perform (session : Session) : Step → Outcome × Session
  | .script rule source => concluded id (runScript rule source session)
  | .eval tree => concluded .failed ((some <$> eval tree : SessionM _) session)
  | .evalAll trees => concluded .failed (evalAll trees session)
  | .setNotMode mode => (.done, { session with notMode := mode })
  | .insert name value =>
    (.previous (session.bindings.get? name),
      { session with bindings := session.bindings.insert name value })
  | .erase name =>
    (.previous (session.bindings.get? name),
      { session with bindings := session.bindings.erase name })

/-- Does a step and reports it. -/
def step (session : Session) (step : Step) : Report × Session :=
  let (outcome, after) := session.perform step
  let before := session.console.output.written.size
  let written := after.console.output.written
  (⟨outcome, written.extract before written.size, after.console.input.consumed, after.bindings⟩,
    after)

/-- The reports of a sequence of steps. -/
def steps : Session → List Step → List Report
  | _, [] => []
  | session, step :: rest =>
    let (report, after) := session.step step
    report :: after.steps rest

end Session

end BoolScript
