import BoolScript.Proofs.Requests
import BoolScript.Proofs.Supply

/-!
# Asking when needed and asking up front

A session asks for a value at the moment an evaluation needs it. It might as well ask for all of
them before it begins: the names that it asks for are settled by the trees, the mode and the names
that have a value already, and an evaluation that is given the answers beforehand ends in the same
way, without a question.

`Session.transcript` is what passes between the user and an evaluation of trees, and
`Session.AsksUpFront` says what has been said here of a successful one.
-/

namespace BoolScript.Session

/-- What passes between a session and its user while the session evaluates trees. -/
def transcript (trees : List Expr) (session : Session) : List Event :=
  events (Expr.evalAll session.notMode trees) session

/-- The questions that an evaluation of trees asks, with their answers. -/
def questions (trees : List Expr) (session : Session) : List (String × Bool) :=
  Event.questions (transcript trees session)

theorem eval_eq (tree : Expr) (session : Session) :
    eval tree session = run (tree.eval session.notMode) session :=
  get_bind_apply _ _

theorem evalAll_eq (trees : List Expr) (session : Session) :
    evalAll trees session = run (Expr.evalAll session.notMode trees) session :=
  get_bind_apply _ _

/-- An evaluation of trees is a run, and its transcript are the events. -/
theorem runs_evalAll (trees : List Expr) (session : Session) :
    Runs (Expr.evalAll session.notMode trees) session (transcript trees session)
      (evalAll trees session) := by
  rw [evalAll_eq]
  exact runs _ session

/-- An evaluation that ends well is as good as one that asks up front. -/
structure AsksUpFront (trees : List Expr) (session : Session) (value : Option Bool)
    (after : Session) : Prop where
  /-- No name is asked for twice. -/
  nodup : ((questions trees session).map Prod.fst).Nodup
  /-- Only names without a value are asked for. -/
  unbound : ∀ name ∈ (questions trees session).map Prod.fst, session.bindings.get? name = none
  /-- The answers are the first lines of the input, one for each question, and no more is read. -/
  takes : ∃ texts : List String, session.console.input.Takes texts after.console.input ∧
    texts.map Console.answer = (questions trees session).map Prod.snd
  /-- The transcript is what is written. -/
  written : after.console.output.written.toList =
    session.console.output.written.toList ++ Event.bytes (transcript trees session)
  /-- Another evaluation that has the answers among its variables has the same value and the same
  variables afterwards. It reads nothing, and writes the same lines except for the prompts. -/
  supplied : ∀ (input : Input) (output : Output), output.room = none → ∃ final,
    evalAll trees
      ⟨session.bindings.insertAll (questions trees session), session.notMode, ⟨input, output⟩⟩ =
        .ok value final ∧
    (∀ name, final.bindings.get? name = after.bindings.get? name) ∧
    final.console.input = input ∧
    final.console.output.written.toList =
      output.written.toList ++ Event.bytes (Event.showings (transcript trees session))
  /-- Any other session in the same mode that has values for the same names asks for the same
  names in the same order, if its evaluation ends well too. -/
  settled : ∀ (other final : Session) (result : Option Bool), other.notMode = session.notMode →
    (∀ name, other.knows name = session.knows name) → evalAll trees other = .ok result final →
    (questions trees other).map Prod.fst = (questions trees session).map Prod.fst

/-- The questions of an evaluation that ends well can be told beforehand. -/
theorem questions_eq_prompts {trees : List Expr} {session after : Session} {value : Option Bool}
    (h : evalAll trees session = .ok value after) :
    (questions trees session).map Prod.fst =
      prompts session.knows (Expr.requestsAll session.notMode trees) :=
  (runs_evalAll trees session).questions_eq_prompts (Expr.follows_evalAll _ trees) h

/-- Asking when a value is needed comes to the same as asking for all values up front. -/
theorem evalAll_asks_up_front {trees : List Expr} {session after : Session} {value : Option Bool}
    (h : evalAll trees session = .ok value after) : AsksUpFront trees session value after := by
  have hrun := runs_evalAll trees session
  have hnodup : ((questions trees session).map Prod.fst).Nodup := hrun.nodup_questions
  have hunbound : ∀ name ∈ (questions trees session).map Prod.fst,
      session.bindings.get? name = none := fun name => hrun.unbound_of_question
  have hx := hrun.exchange h
  refine ⟨hnodup, hunbound, hx.takes, hx.written, ?_, ?_⟩
  · intro input output ho
    let again : Session :=
      ⟨session.bindings.insertAll (questions trees session), session.notMode, ⟨input, output⟩⟩
    have hknown : ∀ name, again.bindings.get? name =
        (session.bindings.get? name).or ((questions trees session).lookup name) :=
      Bindings.get?_insertAll hnodup hunbound
    obtain ⟨final, hf, hb, hi⟩ := hrun.supplied h hknown ho
    have hx' := hf.exchange rfl
    exact ⟨final, (evalAll_eq trees again).trans hf.run_eq, hb, hi, hx'.written⟩
  · intro other final result hm hk ho
    have hknown : other.knows = session.knows := funext hk
    rw [questions_eq_prompts ho, questions_eq_prompts h, hknown, hm]

/-- Two names are asked for; one of them is needed twice, and a third one is replaced. -/
theorem evalAll_asks_up_front_of_two_names :
    let trees : List Expr :=
      [.unary .print "print" (.logical .or (.var "b" 6) (.var "a" 11) 8) 0,
        .binary .assign (.var "c" 14) (.logical .and (.var "b" 18) (.var "c" 24) 20) 16]
    let session : Session :=
      ⟨.insert .empty "c" true, .operatorText, ⟨⟨Text.encode "TRUE\r\nno", 0, false⟩, {}⟩⟩
    questions trees session = [("b", true), ("a", false)] ∧
      ∃ after, evalAll trees session = .ok (some true) after ∧
        AsksUpFront trees session (some true) after :=
  ⟨rfl, _, rfl, evalAll_asks_up_front rfl⟩

end BoolScript.Session
