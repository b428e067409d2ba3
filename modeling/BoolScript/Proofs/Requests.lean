import BoolScript.Proofs.Runs

/-!
# What a tree requests

An action may choose how it goes on by the values it is told, but the action of a tree does not:
which names it reads and writes, in which order, and whether it comes to a fault is written in the
tree. `Expr.requests` reads it off, and `Action.Follows` says that an action makes some requests
whatever the answers are.

## Shape of the questions

Which of the names that are read are also asked for depends on which names have a value, not on what
the values are. `prompts` computes the questions from the requests and the names known at first, and
`Session.Runs.questions_eq_prompts` shows that a run asks them. A run that fails has asked the first
of them (`Session.Runs.failsAt`). Whether a run comes to a fault, and to which, is told by the
requests alone (`Session.Runs.outcome_cases`).
-/

namespace BoolScript

/-- Something that an action wants from its surroundings. -/
inductive Request where
  /-- The value of a name. -/
  | read (name : String)
  /-- A value for a name. -/
  | write (name : String)
  /-- A value shown to the user. -/
  | print
  /-- Nothing more: the tree is meaningless. -/
  | fail (defect : Fault)
  deriving DecidableEq, Repr

/-- The fault that a request is. -/
def Request.fault? : Request → Option Fault
  | fail defect => some defect
  | read _ | write _ | print => none

/-- The name that a request is about. -/
def Request.name? : Request → Option String
  | read name | write name => some name
  | print | fail _ => none

theorem Request.fault?_eq_some_iff {request : Request} {defect : Fault} :
    request.fault? = some defect ↔ request = fail defect := by
  cases request <;> simp [fault?]

/-- The names known when one more is. -/
def learn (known : String → Bool) (name : String) : String → Bool :=
  fun other => other == name || known other

/-- The names that are asked for, in order, if some names are known. -/
def prompts : (String → Bool) → List Request → List String
  | _, [] => []
  | known, .read name :: rest =>
    if known name then prompts known rest else name :: prompts (learn known name) rest
  | known, .write name :: rest => prompts (learn known name) rest
  | known, .print :: rest => prompts known rest
  | _, .fail _ :: _ => []

theorem prompts_read_of_known {known : String → Bool} {name : String} (h : known name = true)
    (rest : List Request) : prompts known (.read name :: rest) = prompts known rest := by
  rw [prompts, if_pos h]

theorem prompts_read_of_unknown {known : String → Bool} {name : String} (h : known name = false)
    (rest : List Request) :
    prompts known (.read name :: rest) = name :: prompts (learn known name) rest := by
  rw [prompts, if_neg (by simp [h])]

/-! ## Actions and their requests -/

/-- The action makes these requests, whatever it is told. Behind a fault no request is made. -/
inductive Action.Follows {α : Type} : List Request → Action α → Prop where
  | finish (value : α) : Follows [] (.finish value)
  | fault (defect : Fault) (rest : List Request) : Follows (.fail defect :: rest) (.fault defect)
  | fetch {name : String} {rest : List Request} {next : Bool → Action α}
    (h : ∀ value, Follows rest (next value)) : Follows (.read name :: rest) (.fetch name next)
  | store {name : String} {value : Bool} {rest : List Request} {next : Action α}
    (h : Follows rest next) : Follows (.write name :: rest) (.store name value next)
  | print {value : Bool} {rest : List Request} {next : Action α} (h : Follows rest next) :
    Follows (.print :: rest) (.print value next)

/-- An action and what comes after it make the requests of one and of the other. -/
theorem Action.Follows.bind {α β : Type} {requests more : List Request} {action : Action α}
    {next : α → Action β} (h : Follows requests action) (hn : ∀ value, Follows more (next value)) :
    Follows (requests ++ more) (action >>= next) := by
  induction h with
  | finish value => exact hn value
  | fault defect rest => exact .fault defect (rest ++ more)
  | fetch _ ih => exact .fetch ih
  | store _ ih => exact .store ih
  | print _ ih => exact .print ih

namespace Expr

/-- The requests of a tree, in the order of its evaluation. -/
def requests (mode : NotMode) : Expr → List Request
  | literal text position =>
    match literalValue text position with
    | .ok _ => []
    | .error defect => [.fail defect]
  | var name _ => [.read name]
  | binary (.logical _) left right _ => left.requests mode ++ right.requests mode
  | binary .assign target value position =>
    match target.target? with
    | some name => value.requests mode ++ [.write name]
    | none => [.fail (.notAssignable position)]
  | unary .print _ operand _ => operand.requests mode ++ [.print]
  | unary .not _ operand _ =>
    match mode with
    | .operatorText => []
    | .operand => operand.requests mode

/-- A tree makes its requests whatever it is told. -/
theorem follows_eval (mode : NotMode) (tree : Expr) :
    Action.Follows (tree.requests mode) (tree.eval mode) := by
  induction tree with
  | literal text position =>
    rw [eval_literal, requests]
    cases literalValue text position with
    | ok value => exact .finish value
    | error defect => exact .fault defect []
  | var name position => exact .fetch fun value => .finish value
  | binary op left right position ihl ihr =>
    cases op with
    | logical connective =>
      rw [eval_logical, requests]
      refine ihl.bind fun l => ?_
      rw [← List.append_nil (right.requests mode)]
      exact ihr.bind fun r => .finish _
    | assign =>
      cases ht : left.target? with
      | some name =>
        -- Only a variable can be assigned to.
        obtain ⟨start, rfl⟩ := target?_eq_some_iff.1 ht
        rw [eval_assign, requests, ht]
        exact ihr.bind fun v => .store (.finish v)
      | none =>
        -- The right side of a meaningless assignment is not evaluated.
        rw [eval_assign_of_target?_eq_none mode ht, requests, ht]
        exact .fault _ []
  | unary op text operand position ih =>
    cases op with
    | print =>
      rw [eval_print, requests]
      exact ih.bind fun v => .print (.finish false)
    | not =>
      cases mode with
      | operatorText => exact .finish _
      | operand =>
        rw [eval_not_operand, requests, ← List.append_nil (operand.requests _)]
        exact ih.bind fun v => .finish _

/-- The requests of trees that are evaluated one after the other. -/
def requestsAll (mode : NotMode) (trees : List Expr) : List Request :=
  trees.flatMap fun tree => tree.requests mode

theorem follows_evalAllFrom (mode : NotMode) (value : Option Bool) (trees : List Expr) :
    Action.Follows (requestsAll mode trees) (evalAllFrom mode value trees) := by
  induction trees generalizing value with
  | nil => exact .finish value
  | cons tree trees ih =>
    rw [evalAllFrom_cons]
    exact (follows_eval mode tree).bind fun v => ih (some v)

/-- Trees that are evaluated one after the other make their requests whatever they are told. -/
theorem follows_evalAll (mode : NotMode) (trees : List Expr) :
    Action.Follows (requestsAll mode trees) (evalAll mode trees) :=
  follows_evalAllFrom mode none trees

end Expr

/-! ## The questions of a run -/

namespace Session

/-- Whether a name has a value. -/
def knows (session : Session) (name : String) : Bool :=
  (session.bindings.get? name).isSome

theorem knows_of_some {session : Session} {name : String} {value : Bool}
    (h : session.bindings.get? name = some value) : session.knows name = true := by
  rw [knows, h]
  rfl

theorem knows_of_none {session : Session} {name : String}
    (h : session.bindings.get? name = none) : session.knows name = false := by
  rw [knows, h]
  rfl

theorem knows_bind (session : Session) (name : String) (value : Bool) :
    (session.bind name value).knows = learn session.knows name := by
  funext other
  rw [knows, bindings_bind, Bindings.get?_insert, learn]
  by_cases h : other = name
  · rw [if_pos h, h, beq_self_eq_true]
    rfl
  · have hne : (other == name) = false := by simpa using h
    rw [if_neg h, hne]
    rfl

variable {α : Type} {action : Action α} {session : Session} {events : List Event}
  {result : EStateM.Result EvalError Session α} {requests : List Request}

/-- A run that ends well has asked for the names that its requests need and that it did not know. -/
theorem Runs.questions_eq_prompts (h : Runs action session events result)
    (hf : Action.Follows requests action) {value : α} {after : Session}
    (hr : result = .ok value after) :
    (Event.questions events).map Prod.fst = prompts session.knows requests := by
  induction h generalizing requests with
  | finish value session =>
    cases hf
    rfl
  | fault | askFailed | showFailed => cases hr
  | known h _ ih =>
    cases hf with
    | fetch hf =>
      rw [prompts_read_of_known (knows_of_some h)]
      exact ih (hf _) hr
  | asked h _ _ ih =>
    cases hf with
    | fetch hf =>
      rw [prompts_read_of_unknown (knows_of_none h), Event.questions_asked, List.map_cons]
      rw [ih (hf _) hr, knows_bind]
      rfl
  | stored _ ih =>
    cases hf with
    | store hf =>
      rw [prompts, ih hf hr, knows_bind]
  | shown _ _ ih =>
    cases hf with
    | print hf =>
      rw [prompts, Event.questions_shown]
      exact ih hf hr

/-- Where a run fails at the console: all its events go well, and then a question for the next name
that the requests need or a value to be printed does not. -/
inductive FailsAt (requests : List Request) (session : Session) (events : List Event)
    (error : ConsoleError) (after : Console) : Prop where
  | question {console : Console} {name : String}
    (exchange : Console.Exchange session.console events console)
    (failure : Console.ask name console = .error error after)
    (next : (Event.questions events).map Prod.fst ++ [name] <+: prompts session.knows requests)
  | value {console : Console} {value : Bool}
    (exchange : Console.Exchange session.console events console)
    (failure : Console.print value console = .error error after)
    (asked : (Event.questions events).map Prod.fst <+: prompts session.knows requests)
    (printing : .print ∈ requests)

/-- A run that fails at the console fails at a request that it comes to. -/
theorem Runs.failsAt (h : Runs action session events result)
    (hf : Action.Follows requests action) {error : ConsoleError} {after : Session}
    (hr : result = .error (.console error) after) :
    FailsAt requests session events error after.console := by
  induction h generalizing requests with
  | finish | fault => cases hr
  | known h _ ih =>
    cases hf with
    | @fetch name rest next hf =>
      have hprompts := prompts_read_of_known (knows_of_some h) rest
      cases ih (hf _) hr with
      | question hx he hn => exact .question hx he (hprompts ▸ hn)
      | value hx he hn hp => exact .value hx he (hprompts ▸ hn) (List.mem_cons_of_mem _ hp)
  | asked h ha _ ih =>
    cases hf with
    | @fetch name rest next hf =>
      have hprompts := prompts_read_of_unknown (knows_of_none h) rest
      cases ih (hf _) hr with
      | question hx he hn =>
        rw [knows_bind] at hn
        refine .question (.asked ha hx) he ?_
        rw [hprompts]
        exact List.cons_prefix_cons.2 ⟨rfl, hn⟩
      | value hx he hn hp =>
        rw [knows_bind] at hn
        refine .value (.asked ha hx) he ?_ (List.mem_cons_of_mem _ hp)
        rw [hprompts]
        exact List.cons_prefix_cons.2 ⟨rfl, hn⟩
  | askFailed h ha =>
    cases hr
    cases hf with
    | @fetch name rest next hf =>
      refine .question (.nil _) ha ?_
      rw [prompts_read_of_unknown (knows_of_none h)]
      exact List.cons_prefix_cons.2 ⟨rfl, List.nil_prefix⟩
  | stored _ ih =>
    cases hf with
    | store hf =>
      cases ih hf hr with
      | question hx he hn =>
        rw [knows_bind] at hn
        exact .question hx he hn
      | value hx he hn hp =>
        rw [knows_bind] at hn
        exact .value hx he hn (List.mem_cons_of_mem _ hp)
  | shown hp _ ih =>
    cases hf with
    | print hf =>
      cases ih hf hr with
      | question hx he hn => exact .question (.shown hp hx) he hn
      | value hx he hn hm => exact .value (.shown hp hx) he hn (List.mem_cons_of_mem _ hm)
  | showFailed hp =>
    cases hr
    cases hf
    exact .value (.nil _) hp List.nil_prefix List.mem_cons_self

/-- Unless the console fails, a run comes to the first fault among the requests, and to its end if
there is none. -/
theorem Runs.outcome_cases (h : Runs action session events result)
    (hf : Action.Follows requests action) :
    (∃ value after, result = .ok value after ∧ requests.findSome? Request.fault? = none) ∨
    (∃ defect after, result = .error (.fault defect) after ∧
      requests.findSome? Request.fault? = some defect) ∨
    ∃ error after, result = .error (.console error) after := by
  induction h generalizing requests with
  | finish value session =>
    cases hf
    exact .inl ⟨value, session, rfl, rfl⟩
  | fault defect session =>
    cases hf
    exact .inr (.inl ⟨defect, session, rfl, rfl⟩)
  | askFailed | showFailed => exact .inr (.inr ⟨_, _, rfl⟩)
  -- No other request is a fault.
  | known _ _ ih | asked _ _ _ ih =>
    cases hf with
    | fetch hf => simpa only [List.findSome?_cons, Request.fault?] using ih (hf _)
  | stored _ ih =>
    cases hf with
    | store hf => simpa only [List.findSome?_cons, Request.fault?] using ih hf
  | shown _ _ ih =>
    cases hf with
    | print hf => simpa only [List.findSome?_cons, Request.fault?] using ih hf

/-- A run comes to a fault only if one is among the requests. -/
theorem Runs.fail_mem (h : Runs action session events result) (hf : Action.Follows requests action)
    {defect : Fault} {after : Session} (hr : result = .error (.fault defect) after) :
    .fail defect ∈ requests := by
  subst hr
  rcases h.outcome_cases hf with ⟨_, _, he, -⟩ | ⟨found, _, he, hfirst⟩ | ⟨_, _, he⟩ <;> cases he
  obtain ⟨request, hm, hd⟩ := List.exists_of_findSome?_eq_some hfirst
  rwa [← Request.fault?_eq_some_iff.1 hd]

end Session

end BoolScript
