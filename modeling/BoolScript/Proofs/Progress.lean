import BoolScript.Proofs.Descent
import BoolScript.Reading.Program

/-!
# Reading programs token by token

`program` looks two tokens ahead to choose the form of a statement and reads the form to its end. A
`Progress` says the same without looking ahead: what has been read of the statement under way, and
the trees of the statements before it. Each token is shifted onto it or refused, and what is refused
or missing depends on the stage alone.

`program_eq_read` says that both are the same reading.

## Shape of the stages

A statement that starts with an operand may still become an assignment, a `not` behind its operand
or an expression; this is the stage `opened`, and the next token decides. The other forms are
decided by their first token, and only expressions are ever more than two tokens away from their
end. `Progress.read_ready` puts the stages of a statement together again.
-/

namespace BoolScript.Reading

/-- How much of the statement under way has been read. -/
inductive Stage where
  /-- Nothing. -/
  | ready
  /-- One operand. -/
  | opened (first : Token) (leaf : Expr)
  /-- A part of an expression. -/
  | inside (state : Partial)
  /-- All but the last operand and the semicolon. -/
  | operand (complete : Expr → Expr)
  /-- All but the semicolon. -/
  | ending (tree : Expr)

namespace Stage

/-- What is wrong with a token, or with the end of the tokens, that cannot come at this stage. -/
def missing : Stage → Location → SyntaxError
  | ready, location | operand _, location | inside (.awaiting _ _), location =>
    .expectedOperand location
  | inside (.holding (_ :: _) _ _), location => .expected [.closeParen] location
  | inside (.holding [] _ _), location | opened _ _, location | ending _, location =>
    .expected [.semicolon] location

/-- The trees that the end of the tokens completes, if they may end at this stage. -/
def last? : Stage → Option (List Expr)
  | ready => some []
  | opened _ leaf => some [leaf]
  | inside (.holding [] level right) => some [level.close right]
  | inside (.holding (_ :: _) _ _) | inside (.awaiting _ _) | operand _ | ending _ => none

end Stage

/-- A program read in part. -/
structure Progress where
  /-- The trees of the complete statements. -/
  done : List Expr
  stage : Stage

namespace Progress

/-- Nothing has been read. -/
def start : Progress :=
  ⟨[], .ready⟩

/-- One more token in an expression: it continues the expression, or it is the semicolon. -/
def shiftInside (done : List Expr) (state : Partial) (token : Token) : Option Progress :=
  match state.shift .disjunction token with
  | some next => some ⟨done, .inside next⟩
  | none =>
    match state with
    | .holding [] level operand =>
      if token.kind = .semicolon then some ⟨done ++ [level.close operand], .ready⟩ else none
    | .holding (_ :: _) _ _ | .awaiting _ _ => none

/-- One more token, if it can come here. -/
def shift (progress : Progress) (token : Token) : Option Progress :=
  match progress.stage with
  | .ready =>
    match leaf? token with
    | some leaf => some ⟨progress.done, .opened token leaf⟩
    | none =>
      if token.kind = .print ∨ token.kind = .not then
        some ⟨progress.done, .operand (applied token)⟩
      else shiftInside progress.done .start token
  | .opened first leaf =>
    if first.kind = .name ∧ token.kind = .assign then
      some ⟨progress.done, .operand fun value => .binary .assign leaf value token.position⟩
    else if token.kind = .not then some ⟨progress.done, .ending (applied token leaf)⟩
    else shiftInside progress.done (.holding [] .empty leaf) token
  | .inside state => shiftInside progress.done state token
  | .operand complete =>
    match leaf? token with
    | some leaf => some ⟨progress.done, .ending (complete leaf)⟩
    | none => none
  | .ending tree =>
    if token.kind = .semicolon then some ⟨progress.done ++ [tree], .ready⟩ else none

/-- Shifts tokens as long as they can come, and gives back the others. -/
def shiftAll : Progress → List Token → Progress × List Token
  | progress, [] => (progress, [])
  | progress, token :: rest =>
    match progress.shift token with
    | some next => next.shiftAll rest
    | none => (progress, token :: rest)

/-- What a progress amounts to in front of tokens that cannot be shifted. -/
def answer (progress : Progress) :
    List Token → EStateM.Result SyntaxError (List Token) (List Expr)
  | [] =>
    match progress.stage.last? with
    | some last => .ok (progress.done ++ last) []
    | none => .error (progress.stage.missing .endOfInput) []
  | token :: rest => .error (progress.stage.missing (.position token.position)) (token :: rest)

/-- Reads a program from here to its end. -/
def read (progress : Progress) : Reading (List Expr) := fun tokens =>
  (progress.shiftAll tokens).1.answer (progress.shiftAll tokens).2

/-! ## Single tokens -/

theorem read_nil (progress : Progress) : progress.read [] = progress.answer [] := rfl

theorem read_of_shift {progress next : Progress} {token : Token}
    (h : progress.shift token = some next) (rest : List Token) :
    progress.read (token :: rest) = next.read rest := by
  simp only [read, shiftAll, h]

theorem read_of_refused {progress : Progress} {token : Token} (h : progress.shift token = none)
    (rest : List Token) : progress.read (token :: rest) = progress.answer (token :: rest) := by
  simp only [read, shiftAll, h]

/-- Two stages that shift a token alike and miss the same thing read alike from there. -/
theorem read_congr {progress other : Progress} {token : Token} (rest : List Token)
    (hs : progress.shift token = other.shift token)
    (hm : progress.stage.missing = other.stage.missing) :
    progress.read (token :: rest) = other.read (token :: rest) := by
  cases h : other.shift token with
  | some next => rw [read_of_shift (hs.trans h), read_of_shift h]
  | none => rw [read_of_refused (hs.trans h), read_of_refused h, answer, answer, hm]

/-! ## The end of a statement -/

theorem read_ending (done : List Expr) (tree : Expr) :
    (mk done (.ending tree)).read =
      expect [.semicolon] >>= fun _ => (mk (done ++ [tree]) .ready).read := by
  funext tokens
  cases tokens with
  | nil =>
    rw [bind_of_error (expect_of_not (by simp))]
    rfl
  | cons token rest =>
    by_cases hk : token.kind = .semicolon
    · rw [bind_of_ok (expect_cons (by simp [hk]) rest)]
      exact read_of_shift (by simp [shift, hk]) rest
    · have hs : (mk done (.ending tree)).shift token = none := by simp [shift, hk]
      rw [bind_of_error (expect_of_not (by simp [hk])), read_of_refused hs]
      rfl

theorem read_operand (done : List Expr) (complete : Expr → Expr) :
    (mk done (.operand complete)).read =
      element >>= fun leaf => (mk done (.ending (complete leaf))).read := by
  funext tokens
  cases tokens with
  | nil =>
    rw [bind_of_error (element_of_not (by simp))]
    rfl
  | cons token rest =>
    cases hl : leaf? token with
    | some leaf =>
      rw [bind_of_ok (element_cons hl rest)]
      exact read_of_shift (by simp [shift, hl]) rest
    | none =>
      have hs : (mk done (.operand complete)).shift token = none := by simp [shift, hl]
      rw [bind_of_error (element_of_not (by simp [hl])), read_of_refused hs]
      rfl

/-! ## Expressions -/

/-- The end of the tokens completes an expression or shows that it is not complete. -/
theorem read_inside_nil (done : List Expr) (state : Partial) :
    (mk done (.inside state)).read [] =
      (state.readOn .disjunction >>= fun tree => terminator >>= fun _ =>
        (mk (done ++ [tree]) .ready).read : Reading _) [] := by
  cases state with
  | awaiting outer level => rfl
  | holding outer level right =>
    cases outer with
    | cons around outer => rfl
    | nil =>
      have hc : (Partial.holding [] level right).readOn .disjunction [] =
          .ok (level.close right) [] := rfl
      rw [bind_of_ok hc, bind_of_ok terminator_nil, read_nil, read_nil]
      simp [answer, Stage.last?]

/-- A token that no expression goes on with is the semicolon behind a complete one, or it is
refused. -/
theorem read_inside_stop (done : List Expr) {state : Partial} {token : Token}
    (hs : state.shift .disjunction token = none) (rest : List Token) :
    (mk done (.inside state)).read (token :: rest) =
      (state.readOn .disjunction >>= fun tree => terminator >>= fun _ =>
        (mk (done ++ [tree]) .ready).read : Reading _) (token :: rest) := by
  have hr := Partial.readOn_of_refused hs rest
  cases state with
  | awaiting outer level =>
    have hp : (mk done (.inside (.awaiting outer level))).shift token = none := by
      simp [shift, shiftInside, hs]
    rw [read_of_refused hp, bind_congr_apply hr]
    rfl
  | holding outer level right =>
    cases outer with
    | cons around outer =>
      have hp : (mk done (.inside (.holding (around :: outer) level right))).shift token =
          none := by
        simp [shift, shiftInside, hs]
      rw [read_of_refused hp, bind_congr_apply hr]
      rfl
    | nil =>
      have hc : (Partial.holding [] level right).readOn .disjunction (token :: rest) =
          .ok (level.close right) (token :: rest) := hr
      rw [bind_of_ok hc]
      by_cases hk : token.kind = .semicolon
      · have hp : (mk done (.inside (.holding [] level right))).shift token =
            some ⟨done ++ [level.close right], .ready⟩ := by
          simp [shift, shiftInside, hs, hk]
        have ht : terminator (token :: rest) = .ok () rest := by
          rw [terminator_cons, bind_of_ok (expect_cons (by simp [hk]) rest)]
          rfl
        rw [read_of_shift hp, bind_of_ok ht]
      · have hp : (mk done (.inside (.holding [] level right))).shift token = none := by
          simp [shift, shiftInside, hs, hk]
        have ht : terminator (token :: rest) =
            .error (.expected [.semicolon] (.position token.position)) (token :: rest) := by
          rw [terminator_cons, bind_of_error (expect_of_not (by simp [hk]))]
          rfl
        rw [read_of_refused hp, bind_of_error ht]
        rfl

/-- What is left of an expression statement is read as one. -/
theorem read_inside (done : List Expr) (state : Partial) :
    (mk done (.inside state)).read =
      state.readOn .disjunction >>= fun tree => terminator >>= fun _ =>
        (mk (done ++ [tree]) .ready).read := by
  funext tokens
  induction tokens generalizing state with
  | nil => exact read_inside_nil done state
  | cons token rest ih =>
    cases hs : state.shift .disjunction token with
    | none => exact read_inside_stop done hs rest
    | some next =>
      have hp : (mk done (.inside state)).shift token = some ⟨done, .inside next⟩ := by
        simp [shift, shiftInside, hs]
      rw [read_of_shift hp, ih next, bind_congr_apply (Partial.readOn_of_shift hs rest)]

/-! ## Statements -/

/-- What follows a statement, read from a fresh start. -/
theorem expressionStatement_bind (done : List Expr) :
    (expressionStatement >>= fun tree => (mk (done ++ [tree]) .ready).read) =
      (mk done (.inside .start)).read := by
  rw [read_inside, Partial.readOn_start, expressionStatement, expression]
  simp only [bind_assoc, pure_bind]

/-- A name with a sign behind it is the beginning of an assignment. -/
theorem read_opened_assign (done : List Expr) {operand : Element} {sign : Token}
    (hn : operand.token.kind = .name) (hs : sign.kind = .assign) (rest : List Token) :
    (mk done (.opened operand.token operand.tree)).read (sign :: rest) =
      (statement >>= fun tree => (mk (done ++ [tree]) .ready).read : Reading _)
        (operand.token :: sign :: rest) := by
  have ha : startsAssignment (operand.token :: sign :: rest) = true :=
    startsAssignment_iff.2 ⟨operand.token, sign, rest, rfl, hn, hs⟩
  have hp : (mk done (.opened operand.token operand.tree)).shift sign =
      some ⟨done, .operand fun value => .binary .assign operand.tree value sign.position⟩ := by
    simp [shift, hn, hs]
  rw [read_of_shift hp, bind_congr_apply (statement_of_startsAssignment ha), assignmentStatement]
  simp only [bind_assoc, pure_bind]
  rw [bind_of_ok (element_cons operand.leaf?_token _),
    bind_of_ok (expect_cons (by simp [hs]) _), read_operand]
  simp only [read_ending]

/-- An operand with a `not` behind it lacks only its semicolon. -/
theorem read_opened_not (done : List Expr) {operand : Element} {operator : Token}
    (ho : operator.kind = .not) (rest : List Token) :
    (mk done (.opened operand.token operand.tree)).read (operator :: rest) =
      (statement >>= fun tree => (mk (done ++ [tree]) .ready).read : Reading _)
        (operand.token :: operator :: rest) := by
  have ha : startsAssignment (operand.token :: operator :: rest) = false := by
    simp [startsAssignment, ho]
  have hu : startsUnary (operand.token :: operator :: rest) = true :=
    startsUnary_iff.2 (.inr ⟨operand, operator, rest, rfl, ho⟩)
  have hp : (mk done (.opened operand.token operand.tree)).shift operator =
      some ⟨done, .ending (applied operator operand.tree)⟩ := by
    simp [shift, ho]
  rw [read_of_shift hp, bind_congr_apply (statement_of_startsUnary ha hu), unaryStatement]
  simp only [bind_assoc, pure_bind]
  rw [bind_of_ok (unaryForm_of_operand operand ho rest), read_ending]

/-- A first operand leaves it to the next token which form the statement has. -/
theorem read_opened (done : List Expr) (operand : Element) (rest : List Token) :
    (mk done (.opened operand.token operand.tree)).read rest =
      (statement >>= fun tree => (mk (done ++ [tree]) .ready).read : Reading _)
        (operand.token :: rest) := by
  have ho (rest : List Token) : startsOperator (operand.token :: rest) = false := by
    rcases operand.kind with hk | hk | hk <;> simp [startsOperator, hk]
  have hi : (mk done (.inside .start)).read (operand.token :: rest) =
      (mk done (.inside (.holding [] .empty operand.tree))).read rest :=
    read_of_shift (by simp [shift, shiftInside, Partial.start,
      Partial.shift_leaf operand.leaf?_token]) rest
  cases rest with
  | nil =>
    have ha : startsAssignment [operand.token] = false := rfl
    have hu : startsUnary [operand.token] = false := by simp [startsUnary, ho]
    rw [bind_congr_apply (statement_of_neither ha hu), expressionStatement_bind, hi]
    rfl
  | cons second rest =>
    by_cases hs : operand.token.kind = .name ∧ second.kind = .assign
    · exact read_opened_assign done hs.1 hs.2 rest
    · by_cases hn : second.kind = .not
      · exact read_opened_not done hn rest
      · -- An expression: the second token is shifted onto the first operand.
        have ha : startsAssignment (operand.token :: second :: rest) = false := by
          simpa [startsAssignment] using hs
        have hu : startsUnary (operand.token :: second :: rest) = false := by
          simp [startsUnary, ho, hn]
        rw [bind_congr_apply (statement_of_neither ha hu), expressionStatement_bind, hi]
        exact read_congr rest (by simp [shift, hs, hn]) rfl

/-- Reading goes on with a whole statement. -/
theorem read_ready (done : List Expr) (token : Token) (rest : List Token) :
    (mk done .ready).read (token :: rest) =
      (statement >>= fun tree => (mk (done ++ [tree]) .ready).read : Reading _)
        (token :: rest) := by
  cases hl : leaf? token with
  | some leaf =>
    obtain ⟨operand, rfl, rfl⟩ := leaf?_eq_some_iff.1 hl
    rw [← read_opened done operand rest]
    exact read_of_shift (by simp [shift, hl]) rest
  | none =>
    have ha : startsAssignment (token :: rest) = false := by
      rw [Bool.eq_false_iff]
      intro ha
      obtain ⟨target, sign, others, he, ht, -⟩ := startsAssignment_iff.1 ha
      obtain ⟨rfl, -⟩ := List.cons.inj he
      simp [leaf?, ht] at hl
    have he : startsElement (token :: rest) = false := by simp [startsElement, hl]
    by_cases ho : token.kind = .print ∨ token.kind = .not
    · have hs : startsOperator (token :: rest) = true :=
        startsOperator_iff.2 ⟨token, rest, rfl, ho⟩
      have hp : (mk done .ready).shift token = some ⟨done, .operand (applied token)⟩ := by
        simp [shift, hl, ho]
      rw [read_of_shift hp,
        bind_congr_apply (statement_of_startsUnary ha (startsUnary_iff.2 (.inl hs))),
        unaryStatement]
      simp only [bind_assoc, pure_bind]
      rw [bind_congr_apply (unaryForm_of_startsOperator he hs), operatorElement]
      simp only [bind_assoc, pure_bind]
      rw [bind_of_ok (expect_cons (by simpa using ho) rest), read_operand]
      simp only [read_ending]
    · have hs : startsUnary (token :: rest) = false := by
        simp only [startsUnary, he, startsOperator]
        simpa using ho
      rw [bind_congr_apply (statement_of_neither ha hs), expressionStatement_bind]
      exact read_congr rest (by simp [shift, hl, ho]) rfl

/-- Reading from the start of a statement is reading a program. -/
theorem read_ready_eq_program (done : List Expr) (tokens : List Token) :
    (mk done .ready).read tokens =
      (program >>= fun trees => pure (done ++ trees) : Reading _) tokens := by
  induction h : tokens.length using Nat.strongRecOn generalizing done tokens with
  | _ length ih =>
    cases tokens with
    | nil =>
      rw [bind_of_ok program_nil]
      rfl
    | cons token rest =>
      rw [read_ready, bind_congr_apply (program_cons token rest)]
      simp only [bind_assoc, pure_bind]
      cases hs : statement (token :: rest) with
      | error error left => rw [bind_of_error hs, bind_of_error hs]
      | ok tree left =>
        have hlt : left.length < length := h ▸ takes_statement _ _ _ hs
        rw [bind_of_ok hs, bind_of_ok hs, ih left.length hlt (done ++ [tree]) left rfl]
        simp only [List.append_assoc, List.singleton_append]

end Progress

/-- A program is read token by token. -/
theorem program_eq_read : program = Progress.start.read := by
  funext tokens
  rw [Progress.start, Progress.read_ready_eq_program]
  simp

end BoolScript.Reading
