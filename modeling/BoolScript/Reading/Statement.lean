import BoolScript.Reading.Expression

/-!
# Reading statements

A statement is an assignment (`x = true;`), a unary statement (`not x;`, `x not;`, `print x;`) or an
expression. Its first two tokens say which: a name and `=` start an assignment; `print`, `not`, or a
truth word or name followed by `not` start a unary statement; all else is an expression. The choice
is final, so that an error is reported where the chosen form goes wrong.

Assignments and unary statements end in a semicolon. An expression does too, unless no token follows
it. `takes_statement` says that a statement is never empty.
-/

namespace BoolScript.Reading

/-! ## Assignments -/

/-- Whether a name and an assignment sign come next. -/
def startsAssignment : List Token → Bool
  | target :: sign :: _ => target.kind == .name && sign.kind == .assign
  | _ => false

/-- Reads an assignment after it has been recognised. -/
def assignmentStatement : Reading Expr := do
  let target ← element
  let sign ← expect [.assign]
  let value ← element
  let _ ← expect [.semicolon]
  return .binary .assign target value sign.position

/-- Reads an assignment, if one comes next; otherwise takes nothing. -/
def assignment : Reading (Option Expr) := do
  if startsAssignment (← get) then
    return some (← assignmentStatement)
  else
    return none

/-! ## Unary statements -/

/-- Whether a truth word or a name comes next. -/
def startsElement : List Token → Bool
  | first :: _ => (leaf? first).isSome
  | [] => false

/-- Whether an operator comes next that stands before its operand. -/
def startsOperator : List Token → Bool
  | first :: _ => first.kind == .print || first.kind == .not
  | [] => false

/-- Whether the next tokens can only be a unary statement. -/
def startsUnary (tokens : List Token) : Bool :=
  startsOperator tokens ||
    (startsElement tokens && tokens[1]?.any fun second => second.kind == .not)

/-- The tree of a unary operator. -/
def applied (operator : Token) (operand : Expr) : Expr :=
  .unary (if operator.kind = .print then .print else .not) operator.text operand operator.position

/-- Reads an operand and a `not` behind it. -/
def negatedElement : Reading Expr := do
  let operand ← element
  let operator ← expect [.not]
  return applied operator operand

/-- Reads a `print` or `not` and the operand behind it. -/
def operatorElement : Reading Expr := do
  let operator ← expect [.print, .not]
  let operand ← element
  return applied operator operand

/-- Reads an operand with its operator on either side. -/
def unaryForm : Reading Expr := do
  let tokens ← get
  if startsElement tokens then negatedElement
  else if startsOperator tokens then operatorElement
  else throw (.expected [.trueWord, .falseWord, .name, .print, .not] (.ofTokens tokens))

/-- Reads a unary statement. -/
def unaryStatement : Reading Expr := do
  let tree ← unaryForm
  let _ ← expect [.semicolon]
  return tree

/-! ## Statements -/

/-- Takes the semicolon behind an expression, which the end of the tokens replaces. -/
def terminator : Reading Unit := do
  if !(← get).isEmpty then
    let _ ← expect [.semicolon]

/-- Reads an expression and what ends it. -/
def expressionStatement : Reading Expr := do
  let tree ← expression
  terminator
  return tree

/-- Reads a statement. -/
def statement : Reading Expr := do
  let tokens ← get
  if startsAssignment tokens then assignmentStatement
  else if startsUnary tokens then unaryStatement
  else expressionStatement

/-! ## What statements take -/

theorem takes_assignmentStatement : Takes assignmentStatement :=
  takes_element.bind fun _ => (trims_expect _).bind fun _ => trims_element.bind fun _ =>
    (trims_expect _).bind fun _ => .pure _

theorem trims_assignmentStatement : Trims assignmentStatement :=
  trims_element.bind fun _ => (trims_expect _).bind fun _ => trims_element.bind fun _ =>
    (trims_expect _).bind fun _ => .pure _

theorem trims_assignment : Trims assignment :=
  .get_bind fun tokens => by
    split
    · exact trims_assignmentStatement.bind fun _ => .pure _
    · exact .pure _

theorem takes_unaryForm : Takes unaryForm :=
  .get_bind fun tokens => by
    split
    · exact takes_element.bind fun _ => (trims_expect _).bind fun _ => .pure _
    · split
      · exact (takes_expect _).bind fun _ => trims_element.bind fun _ => .pure _
      · exact .throw _

theorem trims_unaryForm : Trims unaryForm :=
  .get_bind fun tokens => by
    split
    · exact trims_element.bind fun _ => (trims_expect _).bind fun _ => .pure _
    · split
      · exact (trims_expect _).bind fun _ => trims_element.bind fun _ => .pure _
      · exact .throw _

theorem takes_unaryStatement : Takes unaryStatement :=
  takes_unaryForm.bind fun _ => (trims_expect _).bind fun _ => .pure _

theorem trims_unaryStatement : Trims unaryStatement :=
  trims_unaryForm.bind fun _ => (trims_expect _).bind fun _ => .pure _

theorem trims_terminator : Trims terminator :=
  .get_bind fun tokens => by
    split
    · exact (trims_expect _).bind fun _ => .pure _
    · exact .pure _

theorem takes_expressionStatement : Takes expressionStatement :=
  (takes_operators _).bind fun _ => trims_terminator.bind fun _ => .pure _

theorem trims_expressionStatement : Trims expressionStatement :=
  (trims_operators _).bind fun _ => trims_terminator.bind fun _ => .pure _

theorem takes_statement : Takes statement :=
  .get_bind fun tokens => by
    split
    · exact takes_assignmentStatement
    · split
      · exact takes_unaryStatement
      · exact takes_expressionStatement

theorem trims_statement : Trims statement :=
  .get_bind fun tokens => by
    split
    · exact trims_assignmentStatement
    · split
      · exact trims_unaryStatement
      · exact trims_expressionStatement

end BoolScript.Reading
