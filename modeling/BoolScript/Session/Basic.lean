import BoolScript.Bindings
import BoolScript.Console.Basic
import BoolScript.Expr.Meaning

/-!
# Sessions

A session is what lasts from one script to the next: the variables, the mode in which `not` is read,
and the console. It carries out actions. A name that has a value is answered from the variables; any
other is asked for at the console, and the answer is kept as its value, so that no name is asked for
twice.

`Session.run` is a morphism of monads (`Session.run_bind`): a sequence of actions is carried out one
after the other, and a failure leaves the session as it was when it happened.
-/

namespace BoolScript

/-- Why an evaluation came to no value. -/
inductive EvalError where
  /-- The tree is meaningless. -/
  | fault (defect : Fault)
  /-- The console failed. -/
  | console (error : ConsoleError)
  deriving DecidableEq, Repr, Inhabited

/-- The message for the user of the script. -/
def EvalError.message : EvalError → String
  | fault defect => defect.message
  | console error => error.message

/-- What lasts from one script to the next. -/
structure Session where
  bindings : Bindings := .empty
  notMode : NotMode := .operatorText
  console : Console
  deriving DecidableEq, Repr, Inhabited

/-- A computation within a session; the session is there after a failure too. -/
abbrev SessionM (α : Type) := EStateM EvalError Session α

namespace Session

/-- Does a task at the console of the session. -/
def onConsole {α : Type} (task : ConsoleM α) : SessionM α := fun session =>
  match task session.console with
  | .ok value console => .ok value { session with console }
  | .error error console => .error (.console error) { session with console }

/-- Gives a name a value. -/
def store (name : String) (value : Bool) : SessionM Unit :=
  modify fun session => { session with bindings := session.bindings.insert name value }

/-- The value of a name, which the user is asked for if it has none. -/
def fetch (name : String) : SessionM Bool := do
  match (← get).bindings.get? name with
  | some value => return value
  | none =>
    let value ← onConsole (Console.ask name)
    store name value
    return value

/-- Carries out an action. -/
def run {α : Type} : Action α → SessionM α
  | .finish value => pure value
  | .fault defect => throw (.fault defect)
  | .fetch name next => do
    let value ← fetch name
    run (next value)
  | .store name value next => do
    store name value
    run next
  | .print value next => do
    onConsole (Console.print value)
    run next

/-- Carrying out a sequence of actions is carrying out one after the other. -/
theorem run_bind {α β : Type} (action : Action α) (next : α → Action β) :
    run (action >>= next) = run action >>= fun value => run (next value) := by
  induction action with
  | finish value => rfl
  | fault defect => rfl
  | fetch name rest ih => simp only [Action.fetch_bind, run, ih, bind_assoc]
  | store name value rest ih => simp only [Action.store_bind, run, ih, bind_assoc]
  | print value rest ih => simp only [Action.print_bind, run, ih, bind_assoc]

/-- Evaluates a tree. -/
def eval (tree : Expr) : SessionM Bool := do
  run (tree.eval (← get).notMode)

/-- Evaluates trees one after the other, and has the value of the last one, if there is one. -/
def evalAll (trees : List Expr) : SessionM (Option Bool) := do
  run (Expr.evalAll (← get).notMode trees)

end Session

end BoolScript
