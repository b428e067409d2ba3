import BoolScript.Proofs.ReadingSteps
import BoolScript.Proofs.Unambiguity
import BoolScript.Reading.Soundness

/-!
# Statements are read exactly as the grammar has them

A statement is recognised by its first two tokens. The first two tokens of an expression are never
those of an assignment or of a unary statement (`Derivation.opens`), so no form hides another:
`statement_of_derivation` reads every statement, with any tokens behind, and
`derivation_of_statement` says that nothing else is read, except for an expression that lacks its
semicolon at the end of the tokens.

Because every statement is read, two statements at the start of the same tokens have the same tree
and the same tokens. The form of a statement shows in its tree, but for the two sides on which a
`not` can stand, and these are told apart by the first token.
-/

namespace BoolScript.Reading

/-! ## The first tokens of an expression -/

/-- The tokens are one operand, or start with a parenthesis, or go on behind a first operand with a
connective. -/
inductive Opens : List Token → Prop where
  | operand (operand : Element) : Opens [operand.token]
  | parens {opening : Token} (rest : List Token) (ho : opening.kind = .openParen) :
    Opens (opening :: rest)
  | chain (operand : Element) {operator : Token} {connective : Connective} (rest : List Token)
    (hc : connective? operator.kind = some connective) : Opens (operand.token :: operator :: rest)

theorem Opens.append {left right : List Token} {operator : Token} {connective : Connective}
    (h : Opens left) (hc : connective? operator.kind = some connective) :
    Opens (left ++ operator :: right) := by
  cases h with
  | operand operand => exact .chain operand right hc
  | parens rest ho => exact .parens _ ho
  | chain operand rest ho => exact .chain operand _ ho

theorem Derivation.opens {strength : Strength} (d : Derivation strength) : Opens d.tokens := by
  induction d with
  | leaf operand => exact .operand operand
  | parens opening inner closing ho hc ih => exact .parens _ ho
  | factor inner ih => exact ih
  | tight left operator right ho ihl ihr =>
    have hc : connective? operator.kind = some .and := by rw [ho]; rfl
    exact ihl.append hc
  | conjunction inner ih => exact ih
  | loose left operator right ho ihl ihr =>
    obtain ⟨connective, hc, -⟩ := connective?_of_loose ho
    exact ihl.append hc

/-- No expression holds a semicolon. -/
theorem Derivation.kind_ne_semicolon {strength : Strength} (d : Derivation strength) :
    ∀ token ∈ d.tokens, token.kind ≠ .semicolon := by
  induction d with
  | leaf operand =>
    simp only [tokens, List.forall_mem_singleton]
    rcases operand.kind with hk | hk | hk <;> simp [hk]
  | parens opening inner closing ho hc ih =>
    simp only [tokens, List.forall_mem_append, List.forall_mem_cons]
    exact ⟨⟨by simp [ho], ih⟩, by simp [hc]⟩
  | factor inner ih => exact ih
  | tight left operator right ho ihl ihr =>
    simp only [tokens, List.forall_mem_append, List.forall_mem_cons]
    exact ⟨ihl, by simp [ho], ihr⟩
  | conjunction inner ih => exact ih
  | loose left operator right ho ihl ihr =>
    simp only [tokens, List.forall_mem_append, List.forall_mem_cons]
    exact ⟨ihl, by rcases ho with ho | ho <;> simp [ho], ihr⟩

/-! ## Every statement is read -/

theorem Opens.startsAssignment_append {tokens rest : List Token} (h : Opens tokens)
    (hr : ∀ token ∈ rest.head?, token.kind ≠ .assign) :
    startsAssignment (tokens ++ rest) = false := by
  rw [Bool.eq_false_iff]
  intro ha
  obtain ⟨target, sign, others, he, ht, hs⟩ := startsAssignment_iff.1 ha
  cases h with
  | operand operand =>
    -- The sign would be the first token behind the expression.
    obtain ⟨-, rfl⟩ := List.cons.inj he
    exact hr sign rfl hs
  | parens more ho =>
    obtain ⟨rfl, -⟩ := List.cons.inj he
    rw [ho] at ht
    cases ht
  | chain operand more hc =>
    obtain ⟨-, he⟩ := List.cons.inj he
    obtain ⟨rfl, -⟩ := List.cons.inj he
    rw [hs] at hc
    cases hc

theorem Opens.startsUnary_append {tokens rest : List Token} (h : Opens tokens)
    (hr : ∀ token ∈ rest.head?, token.kind ≠ .not) : startsUnary (tokens ++ rest) = false := by
  rw [Bool.eq_false_iff]
  intro hu
  rcases startsUnary_iff.1 hu with ho | ⟨operand', sign, others, he, hs⟩
  · obtain ⟨operator, others, he, ho⟩ := startsOperator_iff.1 ho
    cases h with
    | operand operand | chain operand =>
      obtain ⟨rfl, -⟩ := List.cons.inj he
      rcases operand.kind with hk | hk | hk <;> simp [hk] at ho
    | parens more hp =>
      obtain ⟨rfl, -⟩ := List.cons.inj he
      simp [hp] at ho
  · cases h with
    | operand operand =>
      obtain ⟨-, rfl⟩ := List.cons.inj he
      exact hr sign rfl hs
    | parens more hp =>
      obtain ⟨rfl, -⟩ := List.cons.inj he
      rcases operand'.kind with hk | hk | hk <;> simp [hk] at hp
    | chain operand more hc =>
      obtain ⟨-, he⟩ := List.cons.inj he
      obtain ⟨rfl, -⟩ := List.cons.inj he
      rw [hs] at hc
      cases hc

/-- What is no assignment and no unary statement is read as an expression. -/
theorem statement_of_opens {tokens rest : List Token} (h : Opens tokens)
    (ha : ∀ token ∈ rest.head?, token.kind ≠ .assign)
    (hn : ∀ token ∈ rest.head?, token.kind ≠ .not) :
    statement (tokens ++ rest) = expressionStatement (tokens ++ rest) :=
  statement_of_neither (h.startsAssignment_append ha) (h.startsUnary_append hn)

theorem expression_of_derivation (d : Derivation .disjunction) {rest : List Token}
    (h : Stops .disjunction rest) : expression (d.tokens ++ rest) = .ok d.tree rest :=
  operators_of_derives d.derives h

/-- A last expression is read without a semicolon. -/
theorem statement_of_last (d : Derivation .disjunction) : statement d.tokens = .ok d.tree [] := by
  have hs : statement (d.tokens ++ []) = expressionStatement (d.tokens ++ []) :=
    statement_of_opens d.opens (by simp) (by simp)
  have he : expression (d.tokens ++ []) = .ok d.tree [] :=
    expression_of_derivation d (by simp [Stops])
  rw [List.append_nil] at hs he
  rw [hs, expressionStatement, bind_of_ok he]
  rfl

/-- A unary statement is an operand with its operator on either side, and a semicolon. -/
theorem statement_of_unaryForm {tokens rest : List Token} {semicolon : Token} {tree : Expr}
    (hu : startsUnary tokens = true) (ha : startsAssignment tokens = false)
    (hf : unaryForm tokens = .ok tree (semicolon :: rest)) (he : semicolon.kind = .semicolon) :
    statement tokens = .ok tree rest := by
  rw [statement_of_startsUnary ha hu, unaryStatement, bind_of_ok hf,
    bind_of_ok (expect_cons (by simp [he]) rest)]
  rfl

/-- An expression statement is an expression and what ends it. -/
theorem expressionStatement_eq_ok_iff {tokens rest : List Token} {tree : Expr} :
    expressionStatement tokens = .ok tree rest ↔
      ∃ left, expression tokens = .ok tree left ∧ terminator left = .ok () rest := by
  rw [expressionStatement, bind_eq_ok_iff]
  constructor
  · rintro ⟨first, left, he, h⟩
    obtain ⟨_, _, ht, hp⟩ := bind_eq_ok_iff.1 h
    obtain ⟨rfl, rfl⟩ := pure_eq_ok_iff.1 hp
    exact ⟨left, he, ht⟩
  · rintro ⟨left, he, ht⟩
    exact ⟨tree, left, he, by rw [bind_of_ok ht]; rfl⟩

/-- An expression statement takes its semicolon. -/
theorem expressionStatement_of_ok {tokens rest : List Token} {semicolon : Token} {tree : Expr}
    (h : expression tokens = .ok tree (semicolon :: rest)) (he : semicolon.kind = .semicolon) :
    expressionStatement tokens = .ok tree rest :=
  expressionStatement_eq_ok_iff.2
    ⟨_, h, terminator_eq_ok_iff.2 (.inr ⟨semicolon, rfl, he⟩)⟩

/-- Every statement is read, and the tokens behind it are left. -/
theorem statement_of_derivation (d : StatementDerivation) (rest : List Token) :
    statement (d.tokens ++ rest) = .ok d.tree rest := by
  cases d with
  | assignment target sign value semicolon ht hs he =>
    have ha : startsAssignment (target :: sign :: value.token :: semicolon :: rest) = true :=
      startsAssignment_iff.2 ⟨target, sign, _, rfl, ht, hs⟩
    have hl : leaf? target = some (.var target.text target.position) := by simp [leaf?, ht]
    change statement (target :: sign :: value.token :: semicolon :: rest) = _
    rw [statement_of_startsAssignment ha, assignmentStatement, bind_of_ok (element_cons hl _),
      bind_of_ok (expect_cons (by simp [hs]) _),
      bind_of_ok (element_cons value.leaf?_token _), bind_of_ok (expect_cons (by simp [he]) rest)]
    rfl
  | postfixNot operand operator semicolon ho he =>
    have hf := unaryForm_of_operand operand ho (semicolon :: rest)
    rw [applied, if_neg (by simp [ho])] at hf
    refine statement_of_unaryForm ?_ ?_ hf he
    · exact startsUnary_iff.2 (.inr ⟨operand, operator, _, rfl, ho⟩)
    · simp [startsAssignment, StatementDerivation.tokens, ho]
  | prefixNot operator operand semicolon ho he =>
    have hf := unaryForm_of_operator (.inr ho) operand (semicolon :: rest)
    rw [applied, if_neg (by simp [ho])] at hf
    refine statement_of_unaryForm ?_ ?_ hf he
    · exact startsUnary_iff.2 (.inl (startsOperator_iff.2 ⟨operator, _, rfl, .inr ho⟩))
    · simp [startsAssignment, StatementDerivation.tokens, ho]
  | print operator operand semicolon ho he =>
    have hf := unaryForm_of_operator (.inl ho) operand (semicolon :: rest)
    rw [applied, if_pos ho] at hf
    refine statement_of_unaryForm ?_ ?_ hf he
    · exact startsUnary_iff.2 (.inl (startsOperator_iff.2 ⟨operator, _, rfl, .inl ho⟩))
    · simp [startsAssignment, StatementDerivation.tokens, ho]
  | expression inner semicolon he =>
    have hs : Stops .disjunction (semicolon :: rest) := by
      intro token ht
      obtain rfl : semicolon = token := by simpa using ht
      simp [he, connective?]
    rw [StatementDerivation.tokens, List.append_assoc,
      statement_of_opens inner.opens (by simp [he]) (by simp [he])]
    exact expressionStatement_of_ok (expression_of_derivation inner hs) he

/-! ## Nothing else is read -/

theorem derivation_of_assignment {tokens rest : List Token} {tree : Expr}
    (ha : startsAssignment tokens = true) (h : assignmentStatement tokens = .ok tree rest) :
    ∃ d : StatementDerivation, tokens = d.tokens ++ rest ∧ d.tree = tree := by
  obtain ⟨target, sign, others, rfl, ht, hs⟩ := startsAssignment_iff.1 ha
  have hl : leaf? target = some (.var target.text target.position) := by simp [leaf?, ht]
  rw [assignmentStatement, bind_of_ok (element_cons hl _),
    bind_of_ok (expect_cons (by simp [hs]) _)] at h
  obtain ⟨value, _, hv, h⟩ := bind_eq_ok_iff.1 h
  obtain ⟨value, rfl, rfl⟩ := element_eq_ok_iff.1 hv
  obtain ⟨semicolon, _, he, hp⟩ := bind_eq_ok_iff.1 h
  obtain ⟨rfl, hk⟩ := expect_eq_ok_iff.1 he
  obtain ⟨rfl, rfl⟩ := pure_eq_ok_iff.1 hp
  exact ⟨.assignment target sign value semicolon ht hs (by simpa using hk), rfl, rfl⟩

theorem operand_of_negatedElement {tokens rest : List Token} {tree : Expr}
    (h : negatedElement tokens = .ok tree rest) :
    ∃ (operand : Element) (operator : Token), tokens = operand.token :: operator :: rest ∧
      operator.kind = .not ∧ tree = applied operator operand.tree := by
  obtain ⟨_, _, he, ho⟩ := bind_eq_ok_iff.1 h
  obtain ⟨operand, rfl, rfl⟩ := element_eq_ok_iff.1 he
  obtain ⟨operator, _, hk, hp⟩ := bind_eq_ok_iff.1 ho
  obtain ⟨rfl, hn⟩ := expect_eq_ok_iff.1 hk
  obtain ⟨rfl, rfl⟩ := pure_eq_ok_iff.1 hp
  exact ⟨operand, operator, rfl, by simpa using hn, rfl⟩

theorem operand_of_operatorElement {tokens rest : List Token} {tree : Expr}
    (h : operatorElement tokens = .ok tree rest) :
    ∃ (operator : Token) (operand : Element), tokens = operator :: operand.token :: rest ∧
      (operator.kind = .print ∨ operator.kind = .not) ∧ tree = applied operator operand.tree := by
  obtain ⟨operator, _, hk, ho⟩ := bind_eq_ok_iff.1 h
  obtain ⟨rfl, hn⟩ := expect_eq_ok_iff.1 hk
  obtain ⟨_, _, he, hp⟩ := bind_eq_ok_iff.1 ho
  obtain ⟨operand, rfl, rfl⟩ := element_eq_ok_iff.1 he
  obtain ⟨rfl, rfl⟩ := pure_eq_ok_iff.1 hp
  exact ⟨operator, operand, rfl, by simpa using hn, rfl⟩

theorem derivation_of_unaryStatement {tokens rest : List Token} {tree : Expr}
    (h : unaryStatement tokens = .ok tree rest) :
    ∃ d : StatementDerivation, tokens = d.tokens ++ rest ∧ d.tree = tree := by
  obtain ⟨_, _, hf, h⟩ := bind_eq_ok_iff.1 h
  obtain ⟨semicolon, _, he, hp⟩ := bind_eq_ok_iff.1 h
  obtain ⟨rfl, hk⟩ := expect_eq_ok_iff.1 he
  obtain ⟨rfl, rfl⟩ := pure_eq_ok_iff.1 hp
  have hk : semicolon.kind = .semicolon := by simpa using hk
  cases hs : startsElement tokens with
  | true =>
    rw [unaryForm_of_startsElement hs] at hf
    obtain ⟨operand, operator, rfl, ho, rfl⟩ := operand_of_negatedElement hf
    exact ⟨.postfixNot operand operator semicolon ho hk, rfl,
      by simp [applied, ho, StatementDerivation.tree]⟩
  | false =>
    cases hp : startsOperator tokens with
    | true =>
      rw [unaryForm_of_startsOperator hs hp] at hf
      obtain ⟨operator, operand, rfl, ho, rfl⟩ := operand_of_operatorElement hf
      rcases ho with ho | ho
      · exact ⟨.print operator operand semicolon ho hk, rfl,
          by simp [applied, ho, StatementDerivation.tree]⟩
      · exact ⟨.prefixNot operator operand semicolon ho hk, rfl,
          by simp [applied, ho, StatementDerivation.tree]⟩
    | false =>
      -- Neither side of the operand can hold an operator.
      rw [unaryForm, get_bind_apply, hs, hp] at hf
      cases hf

theorem derivation_of_expressionStatement {tokens rest : List Token} {tree : Expr}
    (h : expressionStatement tokens = .ok tree rest) :
    (∃ d : StatementDerivation, tokens = d.tokens ++ rest ∧ d.tree = tree) ∨
      rest = [] ∧ ∃ d : Derivation .disjunction, d.tokens = tokens ∧ d.tree = tree := by
  obtain ⟨left, he, ht⟩ := expressionStatement_eq_ok_iff.1 h
  obtain ⟨read, rfl, hd, -⟩ := derives_of_operators he
  obtain ⟨d, rfl, rfl⟩ := hd.exists_derivation
  rcases terminator_eq_ok_iff.1 ht with ⟨rfl, rfl⟩ | ⟨semicolon, rfl, hk⟩
  · exact .inr ⟨rfl, d, by simp, rfl⟩
  · exact .inl ⟨.expression d semicolon hk, by simp [StatementDerivation.tokens], rfl⟩

/-- Reading a statement is reading one of the three forms: the first tokens never hold a reader up
that would have come to an end in another form than theirs. -/
theorem statement_eq_ok_iff {tokens rest : List Token} {tree : Expr} :
    statement tokens = .ok tree rest ↔ assignment tokens = .ok (some tree) rest ∨
      unaryStatement tokens = .ok tree rest ∨ expressionStatement tokens = .ok tree rest := by
  constructor
  · intro h
    cases ha : startsAssignment tokens with
    | true =>
      rw [statement_of_startsAssignment ha] at h
      exact .inl (assignment_eq_some_iff.2 ⟨ha, h⟩)
    | false =>
      cases hu : startsUnary tokens with
      | true =>
        rw [statement_of_startsUnary ha hu] at h
        exact .inr (.inl h)
      | false =>
        rw [statement_of_neither ha hu] at h
        exact .inr (.inr h)
  · -- Whichever form has been read, the tokens have a derivation of it, and with it they are read.
    rintro (h | h | h)
    · obtain ⟨ha, hs⟩ := assignment_eq_some_iff.1 h
      rw [statement_of_startsAssignment ha, hs]
    · obtain ⟨d, rfl, rfl⟩ := derivation_of_unaryStatement h
      exact statement_of_derivation d rest
    · rcases derivation_of_expressionStatement h with ⟨d, rfl, rfl⟩ | ⟨rfl, d, rfl, rfl⟩
      · exact statement_of_derivation d rest
      · exact statement_of_last d

/-- What is read as a statement is one, or it is an expression at the end of the tokens. -/
theorem derivation_of_statement {tokens rest : List Token} {tree : Expr}
    (h : statement tokens = .ok tree rest) :
    (∃ d : StatementDerivation, tokens = d.tokens ++ rest ∧ d.tree = tree) ∨
      rest = [] ∧ ∃ d : Derivation .disjunction, d.tokens = tokens ∧ d.tree = tree := by
  rcases statement_eq_ok_iff.1 h with h | h | h
  · obtain ⟨ha, hs⟩ := assignment_eq_some_iff.1 h
    exact .inl (derivation_of_assignment ha hs)
  · exact .inl (derivation_of_unaryStatement h)
  · exact derivation_of_expressionStatement h

/-! ## One derivation for each statement -/

namespace StatementDerivation

theorem eq_expression_of_isFormula {d : StatementDerivation} (h : d.tree.IsFormula) :
    ∃ inner semicolon he, d = .expression inner semicolon he := by
  cases d with
  | assignment | postfixNot | prefixNot | print => exact h.elim
  | expression inner semicolon he => exact ⟨inner, semicolon, he, rfl⟩

/-- Statements with the same tokens and the same tree have the same derivation. -/
theorem eq_of_tokens_eq {d other : StatementDerivation} (h : d.tokens = other.tokens)
    (ht : d.tree = other.tree) : d = other := by
  by_cases hf : d.tree.IsFormula
  · obtain ⟨inner, semicolon, he, rfl⟩ := eq_expression_of_isFormula hf
    obtain ⟨inner', semicolon', he', rfl⟩ := eq_expression_of_isFormula (ht ▸ hf)
    obtain ⟨hi, hs⟩ := List.append_inj' h rfl
    obtain rfl := Derivation.eq_of_tokens_eq hi
    obtain rfl : semicolon = semicolon' := by simpa using hs
    rfl
  -- The root of the tree tells the forms apart, but for the two sides of `not`.
  · cases d with
    | assignment target sign value semicolon hn hs he =>
      cases other with
      | assignment target' sign' value' semicolon' =>
        simp only [tokens, List.cons.injEq] at h
        obtain ⟨rfl, rfl, hv, rfl, -⟩ := h
        rw [Element.eq_of_token_eq hv]
      | postfixNot | prefixNot | print => cases ht
      | expression inner' => exact absurd (ht ▸ inner'.isFormula_tree) hf
    | postfixNot operand operator semicolon ho he =>
      cases other with
      | postfixNot operand' operator' semicolon' =>
        simp only [tokens, List.cons.injEq] at h
        obtain ⟨hv, rfl, rfl, -⟩ := h
        rw [Element.eq_of_token_eq hv]
      | prefixNot operator' operand' semicolon' ho' =>
        obtain ⟨ho, -⟩ := List.cons.inj h
        rw [← ho] at ho'
        rcases operand.kind with hk | hk | hk <;> simp [hk] at ho'
      | assignment | print => cases ht
      | expression inner' => exact absurd (ht ▸ inner'.isFormula_tree) hf
    | prefixNot operator operand semicolon ho he =>
      cases other with
      | postfixNot operand' operator' semicolon' =>
        obtain ⟨hp, -⟩ := List.cons.inj h
        rw [hp] at ho
        rcases operand'.kind with hk | hk | hk <;> simp [hk] at ho
      | prefixNot operator' operand' semicolon' =>
        simp only [tokens, List.cons.injEq] at h
        obtain ⟨rfl, hv, rfl, -⟩ := h
        rw [Element.eq_of_token_eq hv]
      | assignment | print => cases ht
      | expression inner' => exact absurd (ht ▸ inner'.isFormula_tree) hf
    | print operator operand semicolon ho he =>
      cases other with
      | print operator' operand' semicolon' =>
        simp only [tokens, List.cons.injEq] at h
        obtain ⟨rfl, hv, rfl, -⟩ := h
        rw [Element.eq_of_token_eq hv]
      | assignment | postfixNot | prefixNot => cases ht
      | expression inner' => exact absurd (ht ▸ inner'.isFormula_tree) hf
    | expression inner => exact absurd inner.isFormula_tree hf

/-- Two statements at the start of the same tokens are the same statement. -/
theorem eq_of_tokens_append_eq {d other : StatementDerivation} {rest rest' : List Token}
    (h : d.tokens ++ rest = other.tokens ++ rest') : d = other ∧ rest = rest' := by
  have hd := statement_of_derivation d rest
  rw [h, statement_of_derivation other rest'] at hd
  obtain ⟨ht, rfl⟩ : other.tree = d.tree ∧ rest' = rest := by simpa using hd
  exact ⟨eq_of_tokens_eq (List.append_cancel_right h) ht.symm, rfl⟩

theorem exists_semicolon_mem (d : StatementDerivation) :
    ∃ token ∈ d.tokens, token.kind = .semicolon := by
  cases d with
  | assignment target sign value semicolon ht hs he | postfixNot operand operator semicolon ho he
  | prefixNot operator operand semicolon ho he | print operator operand semicolon ho he
  | expression inner semicolon he => exact ⟨semicolon, by simp [tokens], he⟩

end StatementDerivation

/-- No statement starts a last expression: it would hold a semicolon. -/
theorem Derivation.tokens_ne_statement (d : Derivation .disjunction) (other : StatementDerivation)
    (rest : List Token) : d.tokens ≠ other.tokens ++ rest := by
  intro h
  obtain ⟨token, ht, hk⟩ := other.exists_semicolon_mem
  exact d.kind_ne_semicolon token (by rw [h]; exact List.mem_append_left rest ht) hk

theorem Derivation.tokens_ne_nil {strength : Strength} (d : Derivation strength) : d.tokens ≠ [] :=
  d.derives.ne_nil

theorem StatementDerivation.tokens_ne_nil (d : StatementDerivation) : d.tokens ≠ [] := by
  obtain ⟨token, ht, -⟩ := d.exists_semicolon_mem
  exact List.ne_nil_of_mem ht

end BoolScript.Reading
