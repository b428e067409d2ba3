import BoolScript.Proofs.Exchange
import BoolScript.Session.Basic

/-!
# Runs of actions

What a session does when it carries out an action, step by step: `Session.Runs` has one rule for
everything that can happen, with the events that pass between the session and its user. Every run
of an action is one (`Session.runs`), so that what holds of runs is shown by induction on the rules,
and nothing else takes `Session.run` apart.

## Shape of a run

A name that has a value is not asked for, and a name that is asked for has a value from then on.
Hence no question is asked twice, nor is any asked about a name that had a value at the beginning
(`Runs.nodup_questions`, `Runs.unbound_of_question`). The console of the session sees exactly the
events (`Runs.exchange`).
-/

namespace BoolScript

/-- The state in which a computation ends, whether it fails or not. -/
def stateAfter {ε σ α : Type} : EStateM.Result ε σ α → σ
  | .ok _ state => state
  | .error _ state => state

namespace Session

/-- The session with a value for a name. -/
def bind (session : Session) (name : String) (value : Bool) : Session :=
  { session with bindings := session.bindings.insert name value }

/-- The session with another console. -/
def atConsole (session : Session) (console : Console) : Session :=
  { session with console }

@[simp] theorem bindings_bind (session : Session) (name : String) (value : Bool) :
    (session.bind name value).bindings = session.bindings.insert name value := rfl

@[simp] theorem notMode_bind (session : Session) (name : String) (value : Bool) :
    (session.bind name value).notMode = session.notMode := rfl

@[simp] theorem console_bind (session : Session) (name : String) (value : Bool) :
    (session.bind name value).console = session.console := rfl

@[simp] theorem bindings_atConsole (session : Session) (console : Console) :
    (session.atConsole console).bindings = session.bindings := rfl

@[simp] theorem notMode_atConsole (session : Session) (console : Console) :
    (session.atConsole console).notMode = session.notMode := rfl

@[simp] theorem console_atConsole (session : Session) (console : Console) :
    (session.atConsole console).console = console := rfl

/-- A name without a value is another one than the name just given a value, and had none before. -/
theorem get?_eq_none_of_bind {session : Session} {name other : String} {value : Bool}
    (h : (session.bind name value).bindings.get? other = none) :
    other ≠ name ∧ session.bindings.get? other = none := by
  rw [bindings_bind, Bindings.get?_insert] at h
  by_cases he : other = name
  · rw [if_pos he] at h
    cases h
  · rw [if_neg he] at h
    exact ⟨he, h⟩

/-! ## Single requests -/

theorem store_eq (name : String) (value : Bool) (session : Session) :
    store name value session = .ok () (session.bind name value) := rfl

theorem onConsole_of_ok {α : Type} {task : ConsoleM α} {value : α} {session : Session}
    {console : Console} (h : task session.console = .ok value console) :
    onConsole task session = .ok value (session.atConsole console) := by
  rw [onConsole, h]
  rfl

theorem onConsole_of_error {α : Type} {task : ConsoleM α} {error : ConsoleError}
    {session : Session} {console : Console} (h : task session.console = .error error console) :
    onConsole task session = .error (.console error) (session.atConsole console) := by
  rw [onConsole, h]
  rfl

/-- A name that has a value is answered from the variables. -/
theorem fetch_of_bound {name : String} {value : Bool} {session : Session}
    (h : session.bindings.get? name = some value) :
    fetch name session = .ok value session := by
  rw [fetch, get_bind_apply, h]
  rfl

/-- Any other name is asked for. -/
theorem fetch_of_unbound {name : String} {session : Session}
    (h : session.bindings.get? name = none) :
    fetch name session =
      (do
        let value ← onConsole (Console.ask name)
        store name value
        return value : SessionM Bool) session := by
  rw [fetch, get_bind_apply, h]

theorem fetch_of_answer {name : String} {value : Bool} {session : Session} {console : Console}
    (h : session.bindings.get? name = none)
    (ha : Console.ask name session.console = .ok value console) :
    fetch name session = .ok value ((session.atConsole console).bind name value) := by
  rw [fetch_of_unbound h, bind_of_ok (onConsole_of_ok ha)]
  rfl

theorem fetch_of_failure {name : String} {error : ConsoleError} {session : Session}
    {console : Console} (h : session.bindings.get? name = none)
    (ha : Console.ask name session.console = .error error console) :
    fetch name session = .error (.console error) (session.atConsole console) := by
  rw [fetch_of_unbound h, bind_of_error (onConsole_of_error ha)]

variable {α : Type}

/-- The events of a run: what passes between a session that carries out an action and its user,
until the action ends or fails. -/
def events : Action α → Session → List Event
  | .finish _, _ => []
  | .fault _, _ => []
  | .fetch name next, session =>
    match session.bindings.get? name with
    | some value => events (next value) session
    | none =>
      match Console.ask name session.console with
      | .ok value console =>
        .asked name value :: events (next value) ((session.atConsole console).bind name value)
      | .error _ _ => []
  | .store name value next, session => events next (session.bind name value)
  | .print value next, session =>
    match Console.print value session.console with
    | .ok _ console => .shown value :: events next (session.atConsole console)
    | .error _ _ => []

/-- A session carries out an action with some events and some result. -/
inductive Runs : Action α → Session → List Event → EStateM.Result EvalError Session α → Prop where
  /-- The action has ended. -/
  | finish (value : α) (session : Session) : Runs (.finish value) session [] (.ok value session)
  /-- The action is faulty. -/
  | fault (defect : Fault) (session : Session) :
    Runs (.fault defect) session [] (.error (.fault defect) session)
  /-- The name has a value. -/
  | known {name : String} {next : Bool → Action α} {session : Session} {value : Bool}
    {events : List Event} {result : EStateM.Result EvalError Session α}
    (h : session.bindings.get? name = some value) (rest : Runs (next value) session events result) :
    Runs (.fetch name next) session events result
  /-- The name has no value, and the user gives it one. -/
  | asked {name : String} {next : Bool → Action α} {session : Session} {value : Bool}
    {console : Console} {events : List Event} {result : EStateM.Result EvalError Session α}
    (h : session.bindings.get? name = none)
    (ha : Console.ask name session.console = .ok value console)
    (rest : Runs (next value) ((session.atConsole console).bind name value) events result) :
    Runs (.fetch name next) session (.asked name value :: events) result
  /-- The name has no value, and the user does not give it one. -/
  | askFailed {name : String} {next : Bool → Action α} {session : Session} {error : ConsoleError}
    {console : Console} (h : session.bindings.get? name = none)
    (ha : Console.ask name session.console = .error error console) :
    Runs (.fetch name next) session [] (.error (.console error) (session.atConsole console))
  /-- The name is given a value. -/
  | stored {name : String} {value : Bool} {next : Action α} {session : Session}
    {events : List Event} {result : EStateM.Result EvalError Session α}
    (rest : Runs next (session.bind name value) events result) :
    Runs (.store name value next) session events result
  /-- The value is shown. -/
  | shown {value : Bool} {next : Action α} {session : Session} {console : Console}
    {events : List Event} {result : EStateM.Result EvalError Session α}
    (hp : Console.print value session.console = .ok () console)
    (rest : Runs next (session.atConsole console) events result) :
    Runs (.print value next) session (.shown value :: events) result
  /-- The value cannot be shown. -/
  | showFailed {value : Bool} {next : Action α} {session : Session} {error : ConsoleError}
    {console : Console} (hp : Console.print value session.console = .error error console) :
    Runs (.print value next) session [] (.error (.console error) (session.atConsole console))

/-- Every action is carried out by the rules. -/
theorem runs (action : Action α) (session : Session) :
    Runs action session (events action session) (run action session) := by
  induction action generalizing session with
  | finish value => exact .finish value session
  | fault defect => exact .fault defect session
  | fetch name next ih =>
    rw [events, run]
    cases h : session.bindings.get? name with
    | some value =>
      rw [bind_of_ok (fetch_of_bound h)]
      exact .known h (ih value session)
    | none =>
      cases ha : Console.ask name session.console with
      | ok value console =>
        rw [bind_of_ok (fetch_of_answer h ha)]
        exact .asked h ha (ih value _)
      | error error console =>
        rw [bind_of_error (fetch_of_failure h ha)]
        exact .askFailed h ha
  | store name value next ih =>
    rw [events, run, bind_of_ok (store_eq name value session)]
    exact .stored (ih _)
  | print value next ih =>
    rw [events, run]
    cases hp : Console.print value session.console with
    | ok _ console =>
      rw [bind_of_ok (onConsole_of_ok hp)]
      exact .shown hp (ih _)
    | error error console =>
      rw [bind_of_error (onConsole_of_error hp)]
      exact .showFailed hp

/-- The rules leave no choice. -/
theorem Runs.run_eq {action : Action α} {session : Session} {events : List Event}
    {result : EStateM.Result EvalError Session α} (h : Runs action session events result) :
    run action session = result := by
  induction h with
  | finish | fault => rfl
  | known h _ ih => rw [run, bind_of_ok (fetch_of_bound h), ih]
  | asked h ha _ ih => rw [run, bind_of_ok (fetch_of_answer h ha), ih]
  | askFailed h ha => rw [run, bind_of_error (fetch_of_failure h ha)]
  | stored _ ih => rw [run, bind_of_ok (store_eq _ _ _), ih]
  | shown hp _ ih => rw [run, bind_of_ok (onConsole_of_ok hp), ih]
  | showFailed hp => rw [run, bind_of_error (onConsole_of_error hp)]

namespace Runs

variable {action : Action α} {session : Session} {events : List Event}
  {result : EStateM.Result EvalError Session α}

/-- The mode is not touched. -/
theorem notMode (h : Runs action session events result) :
    (stateAfter result).notMode = session.notMode := by
  induction h with
  | finish | fault | askFailed | showFailed => rfl
  | known _ _ ih | asked _ _ _ ih | stored _ ih | shown _ _ ih => exact ih

/-- A name that is asked for had no value when the run began. -/
theorem unbound_of_question (h : Runs action session events result) {name : String}
    (hn : name ∈ (Event.questions events).map Prod.fst) : session.bindings.get? name = none := by
  induction h with
  | finish | fault | askFailed | showFailed => exact absurd hn List.not_mem_nil
  | known _ _ ih | shown _ _ ih => exact ih hn
  | asked h _ _ ih =>
    rw [Event.questions_asked, List.map_cons, List.mem_cons] at hn
    rcases hn with rfl | hn
    · exact h
    · exact (get?_eq_none_of_bind (ih hn)).2
  | stored _ ih => exact (get?_eq_none_of_bind (ih hn)).2

/-- No name is asked for twice. -/
theorem nodup_questions (h : Runs action session events result) :
    ((Event.questions events).map Prod.fst).Nodup := by
  induction h with
  | finish | fault | askFailed | showFailed => exact .nil
  | known _ _ ih | stored _ ih | shown _ _ ih => exact ih
  | asked _ _ rest ih =>
    rw [Event.questions_asked, List.map_cons]
    refine List.nodup_cons.2 ⟨fun hn => ?_, ih⟩
    -- The name has a value from now on, and only names without one are asked for.
    exact (get?_eq_none_of_bind (rest.unbound_of_question hn)).1 rfl

/-- What the console of the session sees in a run that ends well are its events. -/
theorem exchange (h : Runs action session events result) {value : α} {after : Session}
    (hr : result = .ok value after) :
    Console.Exchange session.console events after.console := by
  induction h with
  | finish =>
    cases hr
    exact .nil _
  | fault | askFailed | showFailed => cases hr
  | known _ _ ih | stored _ ih => exact ih hr
  | asked _ ha _ ih => exact .asked ha (ih hr)
  | shown hp _ ih => exact .shown hp (ih hr)

end Runs

end Session

end BoolScript
