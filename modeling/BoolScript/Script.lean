import BoolScript.Reading.Program
import BoolScript.Session.Basic
import BoolScript.Token.Scanner

/-!
# Scripts

A script is a text that is read by one of four rules, chosen by whoever runs it: as an expression,
as an assignment, as a unary statement, or as a program. Tokens behind the first three are not
looked at, and a script that is no assignment is, under that rule, no tree at all. Nothing is
evaluated unless the whole script has been read, so a syntax error leaves the session as it was.
-/

namespace BoolScript

/-- What a script is read as. -/
inductive Rule where
  | expression
  | assignment
  | unary
  | program
  deriving DecidableEq, Repr, Inhabited

/-- Reads the trees of a script. -/
def Rule.reading : Rule → Reading (List Expr)
  | expression => do return [← Reading.expression]
  | assignment => do return (← Reading.assignment).toList
  | unary => do return [← Reading.unaryStatement]
  | program => Reading.program

theorem Rule.trims_reading (rule : Rule) : Reading.Trims rule.reading := by
  cases rule with
  | expression => exact (Reading.trims_operators _).bind fun _ => .pure _
  | assignment => exact Reading.trims_assignment.bind fun _ => .pure _
  | unary => exact Reading.trims_unaryStatement.bind fun _ => .pure _
  | program => exact Reading.trims_program

/-- The trees of a script. -/
def Rule.parse (rule : Rule) (source : String) : Except SyntaxError (List Expr) := do
  match rule.reading (← tokenize source) with
  | .ok trees _ => .ok trees
  | .error error _ => .error error

section

variable {rule : Rule} {source : String} {tokens rest : List Token}

theorem Rule.parse_of_reading_eq_ok {trees : List Expr} (ht : tokenize source = .ok tokens)
    (hr : rule.reading tokens = .ok trees rest) : rule.parse source = .ok trees := by
  simp [parse, ht, hr, Bind.bind, Except.bind]

theorem Rule.parse_of_reading_eq_error {error : SyntaxError} (ht : tokenize source = .ok tokens)
    (hr : rule.reading tokens = .error error rest) : rule.parse source = .error error := by
  simp [parse, ht, hr, Bind.bind, Except.bind]

theorem Rule.parse_eq_ok_iff {trees : List Expr} :
    rule.parse source = .ok trees ↔ ∃ tokens rest, tokenize source = .ok tokens ∧
      rule.reading tokens = .ok trees rest := by
  constructor
  · intro h
    cases ht : tokenize source with
    | error error => simp [parse, ht, Bind.bind, Except.bind] at h
    | ok tokens =>
      cases hr : rule.reading tokens with
      | ok read rest =>
        rw [parse_of_reading_eq_ok ht hr] at h
        cases h
        exact ⟨tokens, rest, rfl, hr⟩
      | error error rest =>
        rw [parse_of_reading_eq_error ht hr] at h
        cases h
  · rintro ⟨tokens, rest, ht, hr⟩
    exact parse_of_reading_eq_ok ht hr

end

/-- Why a script came to no value. -/
inductive ScriptError where
  /-- The script could not be read. -/
  | refused (error : SyntaxError)
  /-- The script was read, and its evaluation failed. -/
  | failed (error : EvalError)
  deriving DecidableEq, Repr, Inhabited

/-- The message for whoever runs the script. -/
def ScriptError.message : ScriptError → String
  | refused error => error.message
  | failed error => error.message

/-- Reads a script and evaluates its trees one after the other. -/
def Session.runScript (rule : Rule) (source : String) : EStateM ScriptError Session (Option Bool) :=
  fun session =>
    match rule.parse source with
    | .error error => .error (.refused error) session
    | .ok trees =>
      match Session.evalAll trees session with
      | .ok value session => .ok value session
      | .error error session => .error (.failed error) session

/-- A script that cannot be read changes nothing. -/
theorem Session.runScript_of_parse_eq_error {rule : Rule} {source : String} {error : SyntaxError}
    (h : rule.parse source = .error error) (session : Session) :
    runScript rule source session = .error (.refused error) session := by
  simp [runScript, h]

section

variable {rule : Rule} {source : String} {trees : List Expr} {session after : Session}

theorem Session.runScript_of_ok {value : Option Bool} (hp : rule.parse source = .ok trees)
    (h : evalAll trees session = .ok value after) :
    runScript rule source session = .ok value after := by
  simp only [runScript, hp, h]

theorem Session.runScript_of_error {error : EvalError} (hp : rule.parse source = .ok trees)
    (h : evalAll trees session = .error error after) :
    runScript rule source session = .error (.failed error) after := by
  simp only [runScript, hp, h]

/-- Only a script that cannot be read is refused. -/
theorem Session.runScript_eq_refused_iff {error : SyntaxError} :
    runScript rule source session = .error (.refused error) after ↔
      rule.parse source = .error error ∧ session = after := by
  unfold runScript
  split
  · next hp => simp [hp]
  · next trees hp => cases h : evalAll trees session <;> simp [hp]

/-- A run fails where the evaluation of its trees does. -/
theorem Session.runScript_eq_failed_iff {error : EvalError} :
    runScript rule source session = .error (.failed error) after ↔
      ∃ trees, rule.parse source = .ok trees ∧ evalAll trees session = .error error after := by
  unfold runScript
  split
  · next hp => simp [hp]
  · next trees hp => cases h : evalAll trees session <;> simp [hp, h]

end

end BoolScript
