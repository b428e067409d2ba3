import BoolScript.Proofs.Derivation
import BoolScript.Proofs.Stateful

/-!
# Readings step by step

When a reading of a single token answers and when it fails, and which form the first tokens of a
statement stand for. A reading of several tokens is opened with these and never unfolded.
-/

namespace BoolScript.Reading

/-! ## Single tokens -/

theorem expect_cons {kinds : List Kind} {token : Token} (h : token.kind ∈ kinds)
    (rest : List Token) : expect kinds (token :: rest) = .ok token rest := by
  simp [expect, h]

/-- A token of another kind, or the end, is where the requirement fails. -/
theorem expect_of_not {kinds : List Kind} {tokens : List Token}
    (h : ∀ token ∈ tokens.head?, token.kind ∉ kinds) :
    expect kinds tokens = .error (.expected kinds (.ofTokens tokens)) tokens := by
  cases tokens with
  | nil => rfl
  | cons token rest => simp [expect, h token rfl]

theorem expect_eq_ok_iff {kinds : List Kind} {tokens rest : List Token} {token : Token} :
    expect kinds tokens = .ok token rest ↔ tokens = token :: rest ∧ token.kind ∈ kinds := by
  constructor
  · intro h
    cases tokens with
    | nil => cases h
    | cons first others =>
      by_cases hk : first.kind ∈ kinds
      · rw [expect_cons hk] at h
        obtain ⟨rfl, rfl⟩ : first = token ∧ others = rest := by simpa using h
        exact ⟨rfl, hk⟩
      · rw [expect_of_not (by simpa using hk)] at h
        cases h
  · rintro ⟨rfl, hk⟩
    exact expect_cons hk rest

theorem element_cons {token : Token} {leaf : Expr} (h : leaf? token = some leaf)
    (rest : List Token) : element (token :: rest) = .ok leaf rest := by
  simp [element, h]

/-- A token that is no operand, or the end, is where the operand is missing. -/
theorem element_of_not {tokens : List Token} (h : ∀ token ∈ tokens.head?, leaf? token = none) :
    element tokens = .error (.expectedOperand (.ofTokens tokens)) tokens := by
  cases tokens with
  | nil => rfl
  | cons token rest => simp [element, h token rfl]

theorem element_eq_ok_iff {tokens rest : List Token} {tree : Expr} :
    element tokens = .ok tree rest ↔
      ∃ operand : Element, tokens = operand.token :: rest ∧ operand.tree = tree := by
  constructor
  · intro h
    cases tokens with
    | nil => cases h
    | cons first others =>
      cases hl : leaf? first with
      | none =>
        rw [element_of_not (by simpa using hl)] at h
        cases h
      | some leaf =>
        rw [element_cons hl] at h
        obtain ⟨rfl, rfl⟩ : leaf = tree ∧ others = rest := by simpa using h
        obtain ⟨operand, rfl, rfl⟩ := leaf?_eq_some_iff.1 hl
        exact ⟨operand, rfl, rfl⟩
  · rintro ⟨operand, rfl, rfl⟩
    exact element_cons operand.leaf?_token rest

/-- The end of the tokens ends an expression. -/
theorem terminator_nil : terminator [] = .ok () [] := rfl

theorem terminator_cons (token : Token) (rest : List Token) :
    terminator (token :: rest) =
      (expect [.semicolon] >>= fun _ => pure () : Reading Unit) (token :: rest) := rfl

/-- What ends an expression is a semicolon, or the end of the tokens. -/
theorem terminator_eq_ok_iff {tokens rest : List Token} :
    terminator tokens = .ok () rest ↔ tokens = [] ∧ rest = [] ∨
      ∃ semicolon : Token, tokens = semicolon :: rest ∧ semicolon.kind = .semicolon := by
  cases tokens with
  | nil => simp [terminator_nil, eq_comm]
  | cons token others =>
    rw [terminator_cons, bind_eq_ok_iff]
    constructor
    · rintro ⟨semicolon, _, he, hp⟩
      obtain ⟨hl, hk⟩ := expect_eq_ok_iff.1 he
      obtain ⟨-, rfl⟩ := pure_eq_ok_iff.1 hp
      exact .inr ⟨semicolon, hl, by simpa using hk⟩
    · rintro (⟨hn, -⟩ | ⟨semicolon, hl, hk⟩)
      · cases hn
      · exact ⟨semicolon, rest, expect_eq_ok_iff.2 ⟨hl, by simp [hk]⟩, rfl⟩

/-! ## Which form a statement has -/

theorem startsAssignment_iff {tokens : List Token} :
    startsAssignment tokens = true ↔ ∃ target sign rest, tokens = target :: sign :: rest ∧
      target.kind = .name ∧ sign.kind = .assign := by
  match tokens with
  | [] => simp [startsAssignment]
  | [_] => simp [startsAssignment]
  | target :: sign :: rest =>
    simp only [startsAssignment, Bool.and_eq_true, beq_iff_eq]
    constructor
    · rintro ⟨ht, hs⟩
      exact ⟨target, sign, rest, rfl, ht, hs⟩
    · rintro ⟨_, _, _, h, ht, hs⟩
      cases h
      exact ⟨ht, hs⟩

theorem startsElement_iff {tokens : List Token} :
    startsElement tokens = true ↔ ∃ (operand : Element) (rest : List Token),
      tokens = operand.token :: rest := by
  cases tokens with
  | nil => simp [startsElement]
  | cons first rest =>
    simp only [startsElement, Option.isSome_iff_exists, leaf?_eq_some_iff]
    constructor
    · rintro ⟨_, operand, rfl, -⟩
      exact ⟨operand, rest, rfl⟩
    · rintro ⟨operand, _, h⟩
      obtain ⟨rfl, -⟩ := List.cons.inj h
      exact ⟨_, operand, rfl, rfl⟩

theorem startsOperator_iff {tokens : List Token} :
    startsOperator tokens = true ↔ ∃ operator rest, tokens = operator :: rest ∧
      (operator.kind = .print ∨ operator.kind = .not) := by
  cases tokens <;> simp [startsOperator]

theorem startsUnary_iff {tokens : List Token} :
    startsUnary tokens = true ↔ startsOperator tokens = true ∨
      ∃ (operand : Element) (operator : Token) (rest : List Token),
        tokens = operand.token :: operator :: rest ∧ operator.kind = .not := by
  simp only [startsUnary, Bool.or_eq_true, Bool.and_eq_true, startsElement_iff]
  refine or_congr_right ⟨?_, ?_⟩
  · rintro ⟨⟨operand, rest, rfl⟩, h⟩
    cases rest with
    | nil => simp at h
    | cons operator rest => exact ⟨operand, operator, rest, rfl, by simpa using h⟩
  · rintro ⟨operand, operator, rest, rfl, h⟩
    exact ⟨⟨operand, _, rfl⟩, by simpa using h⟩

/-- The rule for assignments reads one where an assignment starts, and nothing elsewhere. -/
theorem assignment_eq_some_iff {tokens rest : List Token} {tree : Expr} :
    assignment tokens = .ok (some tree) rest ↔
      startsAssignment tokens = true ∧ assignmentStatement tokens = .ok tree rest := by
  rw [assignment, get_bind_apply]
  split
  · next ha =>
    rw [bind_eq_ok_iff]
    constructor
    · rintro ⟨first, _, hs, hp⟩
      obtain ⟨hf, rfl⟩ := pure_eq_ok_iff.1 hp
      exact ⟨ha, Option.some.inj hf ▸ hs⟩
    · rintro ⟨-, hs⟩
      exact ⟨tree, rest, hs, rfl⟩
  · next ha =>
    constructor
    · intro hp
      cases (pure_eq_ok_iff.1 hp).1
    · rintro ⟨hs, -⟩
      exact absurd hs ha

theorem statement_of_startsAssignment {tokens : List Token}
    (ha : startsAssignment tokens = true) : statement tokens = assignmentStatement tokens := by
  rw [statement, get_bind_apply, ha]
  rfl

theorem statement_of_startsUnary {tokens : List Token} (ha : startsAssignment tokens = false)
    (hu : startsUnary tokens = true) : statement tokens = unaryStatement tokens := by
  rw [statement, get_bind_apply, ha, hu]
  rfl

theorem statement_of_neither {tokens : List Token} (ha : startsAssignment tokens = false)
    (hu : startsUnary tokens = false) : statement tokens = expressionStatement tokens := by
  rw [statement, get_bind_apply, ha, hu]
  rfl

theorem unaryForm_of_startsElement {tokens : List Token} (he : startsElement tokens = true) :
    unaryForm tokens = negatedElement tokens := by
  rw [unaryForm, get_bind_apply, he]
  rfl

theorem unaryForm_of_startsOperator {tokens : List Token} (he : startsElement tokens = false)
    (ho : startsOperator tokens = true) : unaryForm tokens = operatorElement tokens := by
  rw [unaryForm, get_bind_apply, he, ho]
  rfl

theorem unaryForm_of_operand (operand : Element) {operator : Token} (ho : operator.kind = .not)
    (rest : List Token) :
    unaryForm (operand.token :: operator :: rest) = .ok (applied operator operand.tree) rest := by
  have hs : startsElement (operand.token :: operator :: rest) = true :=
    startsElement_iff.2 ⟨operand, _, rfl⟩
  rw [unaryForm_of_startsElement hs, negatedElement,
    bind_of_ok (element_cons operand.leaf?_token _), bind_of_ok (expect_cons (by simp [ho]) rest)]
  rfl

theorem unaryForm_of_operator {operator : Token}
    (ho : operator.kind = .print ∨ operator.kind = .not) (operand : Element) (rest : List Token) :
    unaryForm (operator :: operand.token :: rest) = .ok (applied operator operand.tree) rest := by
  have hs : startsElement (operator :: operand.token :: rest) = false := by
    rcases ho with ho | ho <;> simp [startsElement, leaf?, ho]
  have hp : startsOperator (operator :: operand.token :: rest) = true :=
    startsOperator_iff.2 ⟨operator, _, rfl, ho⟩
  rw [unaryForm_of_startsOperator hs hp, operatorElement,
    bind_of_ok (expect_cons (by simpa using ho) _),
    bind_of_ok (element_cons operand.leaf?_token rest)]
  rfl

end BoolScript.Reading
