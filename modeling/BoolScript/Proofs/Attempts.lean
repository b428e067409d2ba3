import BoolScript.Proofs.SingleStatements

/-!
# The form of a statement is never chosen wrongly

Two tokens settle which form a statement is read as, although an expression can be of any length and
goes wrong, if it does, at its far end. A reader without that foresight would attempt the forms one
after the other, each from the first token, and give one up when it fails: `Form.attempt`.

Such a reader would do the same. At most one of the attempts succeeds, whatever the tokens are, and
a statement is read if and only if one of them does, with the same tree and the same tokens left
over (`statement_eq_attempt`). So it does not matter in which order they are made either.
-/

namespace BoolScript.Reading

/-- The forms of a statement. -/
inductive Form where
  | assignment
  | unary
  | expression
  deriving DecidableEq, Repr

namespace Form

/-- The rule that reads statements of this form alone. -/
def rule : Form → Rule
  | assignment => .assignment
  | unary => .unary
  | expression => .expression

theorem rule_injective {form other : Form} (h : form.rule = other.rule) : form = other := by
  cases form <;> cases other <;> first | rfl | cases h

/-- What an attempt to read the tokens in this form comes to: a tree and the tokens behind the
statement, if the attempt succeeds. An expression has to be followed by a semicolon, which is taken,
or by nothing. -/
def attempt (tokens : List Token) : Form → Option (Expr × List Token)
  | assignment =>
    match Reading.assignment tokens with
    | .ok (some tree) rest => some (tree, rest)
    | .ok none _ | .error _ _ => none
  | unary =>
    match unaryStatement tokens with
    | .ok tree rest => some (tree, rest)
    | .error _ _ => none
  | expression =>
    match Reading.expression tokens with
    | .ok tree [] => some (tree, [])
    | .ok tree (next :: rest) => if next.kind = .semicolon then some (tree, rest) else none
    | .error _ _ => none

section

variable {tokens rest : List Token} {tree : Expr}

theorem attempt_assignment_eq_some_iff :
    assignment.attempt tokens = some (tree, rest) ↔
      Reading.assignment tokens = .ok (some tree) rest := by
  rw [attempt]
  split <;> simp_all

theorem attempt_unary_eq_some_iff :
    unary.attempt tokens = some (tree, rest) ↔ unaryStatement tokens = .ok tree rest := by
  rw [attempt]
  split <;> simp_all

theorem attempt_expression_eq_some_iff :
    expression.attempt tokens = some (tree, rest) ↔ expressionStatement tokens = .ok tree rest := by
  rw [attempt, expressionStatement_eq_ok_iff]
  simp only [terminator_eq_ok_iff]
  split
  · next read he =>
    simp only [he]
    grind
  · next read next others he =>
    simp only [he]
    grind
  · next he => simp [he]

/-- An attempt that succeeds reads the statement as it is read, and in the form that the root of the
tree has. -/
theorem statement_of_attempt {form : Form} (h : form.attempt tokens = some (tree, rest)) :
    statement tokens = .ok tree rest ∧ form.rule = tree.rule := by
  rw [statement_eq_ok_iff]
  cases form with
  | assignment =>
    rw [attempt_assignment_eq_some_iff] at h
    exact ⟨.inl h, (rule_of_assignmentStatement (assignment_eq_some_iff.1 h).2).symm⟩
  | unary =>
    rw [attempt_unary_eq_some_iff] at h
    exact ⟨.inr (.inl h), (rule_of_unaryStatement h).symm⟩
  | expression =>
    rw [attempt_expression_eq_some_iff] at h
    exact ⟨.inr (.inr h), (rule_of_expressionStatement h).symm⟩

theorem exists_attempt_of_statement (h : statement tokens = .ok tree rest) :
    ∃ form : Form, form.attempt tokens = some (tree, rest) := by
  rcases statement_eq_ok_iff.1 h with h | h | h
  · exact ⟨assignment, attempt_assignment_eq_some_iff.2 h⟩
  · exact ⟨unary, attempt_unary_eq_some_iff.2 h⟩
  · exact ⟨expression, attempt_expression_eq_some_iff.2 h⟩

end

/-- Attempts that succeed with the same tokens are attempts at the same form: both read the same
tree, and its root tells the form. -/
theorem eq_of_attempt {tokens : List Token} {form other : Form} {read read' : Expr × List Token}
    (h : form.attempt tokens = some read) (ho : other.attempt tokens = some read') :
    form = other := by
  obtain ⟨hs, hr⟩ := statement_of_attempt h
  obtain ⟨hs', hr'⟩ := statement_of_attempt ho
  obtain ⟨ht, -⟩ : read.1 = read'.1 ∧ read.2 = read'.2 := by simpa using hs.symm.trans hs'
  exact rule_injective (hr.trans (ht ▸ hr'.symm))

end Form

/-- Reading a statement by its first tokens comes to the same as attempting its forms one after the
other. No two attempts succeed with the same tokens. A statement is read if and only if an attempt
succeeds, with the tree and the tokens left over of that attempt, and whatever order the attempts
are made in, the first one that succeeds is the one. -/
theorem statement_eq_attempt (tokens : List Token) :
    (∀ form other : Form, (form.attempt tokens).isSome → (other.attempt tokens).isSome →
      form = other) ∧
    (∀ tree rest, statement tokens = .ok tree rest ↔
      ∃ form : Form, form.attempt tokens = some (tree, rest)) ∧
    ∀ order : List Form, (∀ form, form ∈ order) → ∀ tree rest,
      statement tokens = .ok tree rest ↔
        order.findSome? (Form.attempt tokens) = some (tree, rest) := by
  have hiff : ∀ tree rest, statement tokens = .ok tree rest ↔
      ∃ form : Form, form.attempt tokens = some (tree, rest) := fun tree rest =>
    ⟨Form.exists_attempt_of_statement, fun ⟨_, h⟩ => (Form.statement_of_attempt h).1⟩
  refine ⟨fun form other h ho => ?_, hiff, fun order horder tree rest => ?_⟩
  · obtain ⟨read, h⟩ := Option.isSome_iff_exists.1 h
    obtain ⟨read', ho⟩ := Option.isSome_iff_exists.1 ho
    exact Form.eq_of_attempt h ho
  · rw [hiff]
    constructor
    · rintro ⟨form, h⟩
      cases hf : order.findSome? (Form.attempt tokens) with
      | none =>
        rw [List.findSome?_eq_none_iff.1 hf form (horder form)] at h
        cases h
      | some first =>
        -- The first attempt that succeeds is the only one.
        obtain ⟨other, -, ho⟩ := List.exists_of_findSome?_eq_some hf
        obtain rfl := Form.eq_of_attempt h ho
        exact ho.symm.trans h
    · intro h
      obtain ⟨form, -, hf⟩ := List.exists_of_findSome?_eq_some h
      exact ⟨form, hf⟩

end BoolScript.Reading
