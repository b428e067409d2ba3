import BoolScript.Proofs.ReadingSteps
import BoolScript.Script
import Mathlib.Data.List.Forall2

/-!
# Readings decide by kinds

Whether a token is taken, and what it becomes a part of, is a matter of its kind. Its text and its
position are put into the tree or into the error, and nothing looks at them before. So lists of
tokens of the same kinds are read in step, with trees and errors that differ as the tokens do.

## Shape of the correspondence

`R` is any relation that keeps kinds, say, that of tokens to the same tokens in other places. What
is made of tokens corresponds if it is made in the same way of tokens in this relation: trees
(`Expr.Corresponds`), waiting operators and partly read expressions. Two readings correspond if they
take tokens in the relation to corresponding results. This is kept by sequencing and by looking at
the kinds of the next tokens, so every rule corresponds to itself (`Rule.corresponds_reading`).
-/

namespace BoolScript

/-- Tokens in this relation are of the same kind. -/
def KeepsKinds (R : Token → Token → Prop) : Prop :=
  ∀ token token', R token token' → token.kind = token'.kind

/-- Trees of one shape whose nodes stand for tokens in this relation. -/
inductive Expr.Corresponds (R : Token → Token → Prop) : Expr → Expr → Prop where
  | literal {token token' : Token} (h : R token token')
    (hk : token.kind = .trueWord ∨ token.kind = .falseWord) :
    Corresponds R (.literal token.text token.position) (.literal token'.text token'.position)
  | var {token token' : Token} (h : R token token') (hk : token.kind = .name) :
    Corresponds R (.var token.text token.position) (.var token'.text token'.position)
  | logical {token token' : Token} {connective : Connective} {left right left' right' : Expr}
    (h : R token token') (hk : Reading.connective? token.kind = some connective)
    (hl : Corresponds R left left') (hr : Corresponds R right right') :
    Corresponds R (.logical connective left right token.position)
      (.logical connective left' right' token'.position)
  | assign {token token' : Token} {target value target' value' : Expr} (h : R token token')
    (hk : token.kind = .assign) (ht : Corresponds R target target')
    (hv : Corresponds R value value') :
    Corresponds R (.binary .assign target value token.position)
      (.binary .assign target' value' token'.position)
  | print {token token' : Token} {operand operand' : Expr} (h : R token token')
    (hk : token.kind = .print) (ho : Corresponds R operand operand') :
    Corresponds R (.unary .print token.text operand token.position)
      (.unary .print token'.text operand' token'.position)
  | not {token token' : Token} {operand operand' : Expr} (h : R token token')
    (hk : token.kind = .not) (ho : Corresponds R operand operand') :
    Corresponds R (.unary .not token.text operand token.position)
      (.unary .not token'.text operand' token'.position)

/-- Errors of the grammar that require the same, each in its own place. -/
inductive SyntaxError.SameAt (place place' : Location) : SyntaxError → SyntaxError → Prop where
  | expected (kinds : List Kind) :
    SameAt place place' (.expected kinds place) (.expected kinds place')
  | expectedOperand : SameAt place place' (.expectedOperand place) (.expectedOperand place')

namespace Reading

/-! ## Corresponding readings -/

section

variable {α β γ δ : Type} {R : Token → Token → Prop} {A : α → β → Prop} {B : γ → δ → Prop}

/-- Answers or errors that correspond, with corresponding tokens left over. -/
inductive SameResult (R : Token → Token → Prop) (A : α → β → Prop) :
    EStateM.Result SyntaxError (List Token) α → EStateM.Result SyntaxError (List Token) β →
      Prop where
  | ok {answer : α} {answer' : β} {rest rest' : List Token} (ha : A answer answer')
    (hr : List.Forall₂ R rest rest') : SameResult R A (.ok answer rest) (.ok answer' rest')
  | error {error error' : SyntaxError} {rest rest' : List Token}
    (he : SyntaxError.SameAt (.ofTokens rest) (.ofTokens rest') error error')
    (hr : List.Forall₂ R rest rest') : SameResult R A (.error error rest) (.error error' rest')

/-- Readings that take corresponding tokens to corresponding results. -/
def Corresponds (R : Token → Token → Prop) (A : α → β → Prop) (reading : Reading α)
    (reading' : Reading β) : Prop :=
  ∀ tokens tokens', List.Forall₂ R tokens tokens' →
    SameResult R A (reading tokens) (reading' tokens')

variable {reading : Reading α} {reading' : Reading β} {next : α → Reading γ} {next' : β → Reading δ}
  {tokens tokens' : List Token}

/-- What goes on behind corresponding results has to correspond only behind answers. -/
theorem SameResult.bind (h : SameResult R A (reading tokens) (reading' tokens'))
    (hn : ∀ answer answer' rest rest', A answer answer' → List.Forall₂ R rest rest' →
      reading tokens = .ok answer rest → SameResult R B (next answer rest) (next' answer' rest')) :
    SameResult R B ((reading >>= next) tokens) ((reading' >>= next') tokens') := by
  simp only [Bind.bind, EStateM.bind]
  cases hr : reading tokens <;> cases hr' : reading' tokens' <;> rw [hr, hr'] at h
  · cases h with
    | ok ha hrest => exact hn _ _ _ _ ha hrest hr
  · cases h
  · cases h
  · cases h with
    | error he hrest => exact .error he hrest

theorem Corresponds.bind (h : Corresponds R A reading reading')
    (hn : ∀ answer answer', A answer answer' → Corresponds R B (next answer) (next' answer')) :
    Corresponds R B (reading >>= next) (reading' >>= next') := fun tokens tokens' ht =>
  (h tokens tokens' ht).bind fun _ _ _ _ ha hr _ => hn _ _ ha _ _ hr

theorem Corresponds.pure {answer : α} {answer' : β} (h : A answer answer') :
    Corresponds R A (pure answer) (pure answer') :=
  fun _ _ ht => .ok h ht

/-- Looking at corresponding tokens, readings go on in corresponding ways. -/
theorem Corresponds.get_bind {next : List Token → Reading α} {next' : List Token → Reading β}
    (h : ∀ tokens tokens', List.Forall₂ R tokens tokens' →
      SameResult R A (next tokens tokens) (next' tokens' tokens')) :
    Corresponds R A (get >>= next) (get >>= next') :=
  h

/-- Both readings go on with the same branch. -/
theorem SameResult.ite {first second : Reading α} {first' second' : Reading β} {test test' : Bool}
    (ht : test = test') (hf : SameResult R A (first tokens) (first' tokens'))
    (hs : SameResult R A (second tokens) (second' tokens')) :
    SameResult R A ((if test then first else second) tokens)
      ((if test' then first' else second') tokens') := by
  subst ht
  cases test
  · exact hs
  · exact hf

end

variable {R : Token → Token → Prop}

/-- Corresponding tokens that are left over begin at the same index of corresponding lists. -/
theorem exists_drop_eq {tokens tokens' rest rest' : List Token} (ht : List.Forall₂ R tokens tokens')
    (hr : List.Forall₂ R rest rest') (hs : rest <:+ tokens) (hs' : rest' <:+ tokens') :
    ∃ index, tokens.drop index = rest ∧ tokens'.drop index = rest' := by
  refine ⟨tokens.length - rest.length, (List.suffix_iff_eq_drop.1 hs).symm, ?_⟩
  rw [ht.length_eq, hr.length_eq]
  exact (List.suffix_iff_eq_drop.1 hs').symm

/-! ## Single tokens -/

theorem corresponds_leaf? (hR : KeepsKinds R) {token token' : Token} (h : R token token') :
    Option.Rel (Expr.Corresponds R) (leaf? token) (leaf? token') := by
  unfold leaf?
  rw [← hR _ _ h]
  split
  · next hk => exact .some (.literal h (.inl hk))
  · next hk => exact .some (.literal h (.inr hk))
  · next hk => exact .some (.var h hk)
  · exact .none

theorem corresponds_expect (hR : KeepsKinds R) (kinds : List Kind) :
    Corresponds R (fun token token' => R token token' ∧ token.kind ∈ kinds) (expect kinds)
      (expect kinds) := by
  intro tokens tokens' ht
  cases ht with
  | nil => exact .error (.expected kinds) .nil
  | @cons token token' rest rest' h hr =>
    have hkind := hR _ _ h
    by_cases hk : token.kind ∈ kinds
    · rw [expect_cons hk, expect_cons (hkind ▸ hk)]
      exact .ok ⟨h, hk⟩ hr
    · rw [expect_of_not (by simpa using hk), expect_of_not (by simpa [← hkind] using hk)]
      exact .error (.expected kinds) (.cons h hr)

theorem corresponds_element (hR : KeepsKinds R) :
    Corresponds R (Expr.Corresponds R) element element := by
  intro tokens tokens' ht
  cases ht with
  | nil => exact .error .expectedOperand .nil
  | @cons token token' rest rest' h hr =>
    have hleaf := corresponds_leaf? hR h
    rw [element, element]
    generalize leaf? token = leaf, leaf? token' = leaf' at hleaf ⊢
    cases hleaf with
    | none => exact .error .expectedOperand (.cons h hr)
    | some htree => exact .ok htree hr

/-! ## Operator expressions -/

/-- Operators that stand for corresponding tokens and wait behind corresponding operands. -/
inductive Pending.Corresponds (R : Token → Token → Prop) : Pending → Pending → Prop where
  | mk {token token' : Token} {connective : Connective} {left left' : Expr} (h : R token token')
    (hk : connective? token.kind = some connective) (hl : Expr.Corresponds R left left') :
    Corresponds R ⟨left, connective, token.position⟩ ⟨left', connective, token'.position⟩

/-- Levels at which corresponding operators wait. -/
structure Level.Corresponds (R : Token → Token → Prop) (level level' : Level) : Prop where
  loose : Option.Rel (Pending.Corresponds R) level.loose level'.loose
  tight : Option.Rel (Pending.Corresponds R) level.tight level'.tight

/-- Partly read expressions that are made in the same way of corresponding tokens. -/
inductive Partial.Corresponds (R : Token → Token → Prop) : Partial → Partial → Prop where
  | awaiting {outer outer' : List Level} {level level' : Level}
    (ho : List.Forall₂ (Level.Corresponds R) outer outer') (hl : Level.Corresponds R level level') :
    Corresponds R (.awaiting outer level) (.awaiting outer' level')
  | holding {outer outer' : List Level} {level level' : Level} {operand operand' : Expr}
    (ho : List.Forall₂ (Level.Corresponds R) outer outer') (hl : Level.Corresponds R level level')
    (he : Expr.Corresponds R operand operand') :
    Corresponds R (.holding outer level operand) (.holding outer' level' operand')

section

variable {level level' : Level} {operand operand' : Expr}

theorem Pending.Corresponds.close {pending pending' : Pending}
    (h : Pending.Corresponds R pending pending') (ho : Expr.Corresponds R operand operand') :
    Expr.Corresponds R (pending.close operand) (pending'.close operand') := by
  cases h with
  | mk h hk hl => exact .logical h hk hl ho

namespace Level.Corresponds

theorem empty : Level.Corresponds R .empty .empty :=
  ⟨.none, .none⟩

theorem closeTight (h : Level.Corresponds R level level')
    (ho : Expr.Corresponds R operand operand') :
    Expr.Corresponds R (level.closeTight operand) (level'.closeTight operand') := by
  obtain ⟨loose, tight⟩ := level
  obtain ⟨loose', tight'⟩ := level'
  obtain ⟨-, ht⟩ := h
  cases ht with
  | none => exact ho
  | some hp => exact hp.close ho

theorem close (h : Level.Corresponds R level level') (ho : Expr.Corresponds R operand operand') :
    Expr.Corresponds R (level.close operand) (level'.close operand') := by
  have ht := h.closeTight ho
  obtain ⟨loose, tight⟩ := level
  obtain ⟨loose', tight'⟩ := level'
  obtain ⟨hl, -⟩ := h
  cases hl with
  | none => exact ht
  | some hp => exact hp.close ht

theorem extend (h : Level.Corresponds R level level') (ho : Expr.Corresponds R operand operand')
    {token token' : Token} (hr : R token token') {connective : Connective}
    (hk : connective? token.kind = some connective) :
    Level.Corresponds R (level.extend operand connective token.position)
      (level'.extend operand' connective token'.position) := by
  cases connective with
  | and => exact ⟨h.loose, .some (.mk hr hk (h.closeTight ho))⟩
  | or | xor => exact ⟨.some (.mk hr hk (h.close ho)), .none⟩

end Level.Corresponds

end

namespace Partial.Corresponds

variable {state state' : Partial}

/-- Tokens of one kind continue both expressions in the same way, or neither. -/
theorem shift (hR : KeepsKinds R) (h : Partial.Corresponds R state state') {token token' : Token}
    (hr : R token token') (strength : Strength) :
    Option.Rel (Partial.Corresponds R) (state.shift strength token)
      (state'.shift strength token') := by
  have hkind := hR _ _ hr
  cases h with
  | awaiting ho hl =>
    have hleaf := corresponds_leaf? hR hr
    simp only [Partial.shift, ← hkind]
    generalize leaf? token = leaf, leaf? token' = leaf' at hleaf ⊢
    cases hleaf with
    | some htree => exact .some (.holding ho hl htree)
    | none =>
      dsimp only
      split
      · exact .some (.awaiting (.cons hl ho) .empty)
      · exact .none
  | @holding outer outer' level level' operand operand' ho hl he =>
    have hempty : outer.isEmpty = outer'.isEmpty := by cases ho <;> rfl
    simp only [Partial.shift, ← hkind, ← hempty]
    cases hk : connective? token.kind with
    | some connective =>
      dsimp only
      split
      · exact .none
      · exact .some (.awaiting ho (hl.extend he hr hk))
    | none =>
      by_cases hc : token.kind = .closeParen
      · simp only [hc]
        cases ho with
        | nil => exact .none
        | cons ha ho => exact .some (.holding ho ha (hl.close he))
      · simp [hc]

/-- Both expressions take equally many of corresponding tokens. -/
theorem shiftAll (hR : KeepsKinds R) (h : Partial.Corresponds R state state')
    {tokens tokens' : List Token} (ht : List.Forall₂ R tokens tokens') (strength : Strength) :
    Partial.Corresponds R (state.shiftAll strength tokens).1 (state'.shiftAll strength tokens').1 ∧
      List.Forall₂ R (state.shiftAll strength tokens).2 (state'.shiftAll strength tokens').2 := by
  induction ht generalizing state state' with
  | nil => exact ⟨h, .nil⟩
  | @cons token token' rest rest' hr ht ih =>
    have hs := h.shift hR hr strength
    rw [Partial.shiftAll, Partial.shiftAll]
    generalize state.shift strength token = next, state'.shift strength token' = next' at hs ⊢
    cases hs with
    | none => exact ⟨h, .cons hr ht⟩
    | some hn => exact ih hn

end Partial.Corresponds

theorem corresponds_operators (hR : KeepsKinds R) (strength : Strength) :
    Corresponds R (Expr.Corresponds R) (operators strength) (operators strength) := by
  intro tokens tokens' ht
  obtain ⟨hs, hr⟩ := Partial.Corresponds.shiftAll hR (.awaiting .nil .empty) ht strength
  unfold operators Partial.start
  generalize (Partial.awaiting [] .empty).shiftAll strength tokens = left at hs hr ⊢
  generalize (Partial.awaiting [] .empty).shiftAll strength tokens' = left' at hs hr ⊢
  obtain ⟨stopped, rest⟩ := left
  obtain ⟨stopped', rest'⟩ := left'
  cases hs with
  | awaiting ho hl => exact .error .expectedOperand hr
  | holding ho hl he =>
    cases ho with
    | nil => exact .ok (hl.close he) hr
    | cons _ _ => exact .error (.expected _) hr

/-! ## Statements -/

section

variable {tokens tokens' : List Token}

theorem startsAssignment_eq (hR : KeepsKinds R) (h : List.Forall₂ R tokens tokens') :
    startsAssignment tokens = startsAssignment tokens' := by
  cases h with
  | nil => rfl
  | cons ht h =>
    cases h with
    | nil => rfl
    | cons hs h => rw [startsAssignment, startsAssignment, hR _ _ ht, hR _ _ hs]

theorem startsElement_eq (hR : KeepsKinds R) (h : List.Forall₂ R tokens tokens') :
    startsElement tokens = startsElement tokens' := by
  cases h with
  | nil => rfl
  | @cons token token' rest rest' ht h =>
    have hleaf := corresponds_leaf? hR ht
    rw [startsElement, startsElement]
    generalize leaf? token = leaf, leaf? token' = leaf' at hleaf ⊢
    cases hleaf <;> rfl

theorem startsOperator_eq (hR : KeepsKinds R) (h : List.Forall₂ R tokens tokens') :
    startsOperator tokens = startsOperator tokens' := by
  cases h with
  | nil => rfl
  | cons ht h => rw [startsOperator, startsOperator, hR _ _ ht]

theorem startsUnary_eq (hR : KeepsKinds R) (h : List.Forall₂ R tokens tokens') :
    startsUnary tokens = startsUnary tokens' := by
  rw [startsUnary, startsUnary, startsOperator_eq hR h, startsElement_eq hR h]
  cases h with
  | nil => rfl
  | cons ht h =>
    cases h with
    | nil => rfl
    | cons hs h => simp [hR _ _ hs]

end

theorem corresponds_assignmentStatement (hR : KeepsKinds R) :
    Corresponds R (Expr.Corresponds R) assignmentStatement assignmentStatement :=
  (corresponds_element hR).bind fun _ _ ht =>
    (corresponds_expect hR _).bind fun _ _ hs =>
      (corresponds_element hR).bind fun _ _ hv =>
        (corresponds_expect hR _).bind fun _ _ _ =>
          .pure (.assign hs.1 (by simpa using hs.2) ht hv)

theorem corresponds_assignment (hR : KeepsKinds R) :
    Corresponds R (Option.Rel (Expr.Corresponds R)) assignment assignment :=
  .get_bind fun tokens tokens' ht => by
    refine .ite (startsAssignment_eq hR ht) ?_ (.ok .none ht)
    exact (corresponds_assignmentStatement hR).bind (fun _ _ h => .pure (.some h)) _ _ ht

theorem corresponds_applied {operator operator' : Token} {operand operand' : Expr}
    (hR : KeepsKinds R) (h : R operator operator')
    (hk : operator.kind = .print ∨ operator.kind = .not)
    (ho : Expr.Corresponds R operand operand') :
    Expr.Corresponds R (applied operator operand) (applied operator' operand') := by
  rw [applied, applied, ← hR _ _ h]
  rcases hk with hk | hk
  · simpa only [hk] using .print h hk ho
  · simpa only [hk] using .not h hk ho

theorem corresponds_negatedElement (hR : KeepsKinds R) :
    Corresponds R (Expr.Corresponds R) negatedElement negatedElement :=
  (corresponds_element hR).bind fun _ _ ho =>
    (corresponds_expect hR _).bind fun _ _ hn =>
      .pure (corresponds_applied hR hn.1 (.inr (by simpa using hn.2)) ho)

theorem corresponds_operatorElement (hR : KeepsKinds R) :
    Corresponds R (Expr.Corresponds R) operatorElement operatorElement :=
  (corresponds_expect hR _).bind fun _ _ hn =>
    (corresponds_element hR).bind fun _ _ ho =>
      .pure (corresponds_applied hR hn.1 (by simpa using hn.2) ho)

theorem corresponds_unaryForm (hR : KeepsKinds R) :
    Corresponds R (Expr.Corresponds R) unaryForm unaryForm :=
  .get_bind fun tokens tokens' ht => by
    refine .ite (startsElement_eq hR ht) (corresponds_negatedElement hR _ _ ht) ?_
    refine .ite (startsOperator_eq hR ht) (corresponds_operatorElement hR _ _ ht) ?_
    exact .error (.expected _) ht

theorem corresponds_unaryStatement (hR : KeepsKinds R) :
    Corresponds R (Expr.Corresponds R) unaryStatement unaryStatement :=
  (corresponds_unaryForm hR).bind fun _ _ h =>
    (corresponds_expect hR _).bind fun _ _ _ => .pure h

theorem corresponds_terminator (hR : KeepsKinds R) :
    Corresponds R Eq terminator terminator :=
  .get_bind fun tokens tokens' ht => by
    refine .ite (by cases ht <;> rfl) ?_ (.ok rfl ht)
    exact (corresponds_expect hR _).bind (fun _ _ _ => .pure rfl) _ _ ht

theorem corresponds_expressionStatement (hR : KeepsKinds R) :
    Corresponds R (Expr.Corresponds R) expressionStatement expressionStatement :=
  (corresponds_operators hR _).bind fun _ _ h =>
    (corresponds_terminator hR).bind fun _ _ _ => .pure h

theorem corresponds_statement (hR : KeepsKinds R) :
    Corresponds R (Expr.Corresponds R) statement statement :=
  .get_bind fun tokens tokens' ht => by
    refine .ite (startsAssignment_eq hR ht) (corresponds_assignmentStatement hR _ _ ht) ?_
    refine .ite (startsUnary_eq hR ht) (corresponds_unaryStatement hR _ _ ht) ?_
    exact corresponds_expressionStatement hR _ _ ht

/-! ## Programs -/

theorem corresponds_program (hR : KeepsKinds R) :
    Corresponds R (List.Forall₂ (Expr.Corresponds R)) program program := by
  intro tokens tokens' ht
  -- The induction is on how many tokens are left, and statements take some.
  induction hn : tokens.length using Nat.strongRecOn generalizing tokens tokens' with
  | ind n ih =>
    cases ht with
    | nil =>
      rw [program_nil]
      exact .ok .nil .nil
    | cons h hr =>
      rw [program_cons, program_cons]
      refine (corresponds_statement hR _ _ (.cons h hr)).bind
        fun tree tree' rest rest' ht hr hs => ?_
      have hlt := takes_statement _ _ _ hs
      refine (ih _ (hn ▸ hlt) _ _ hr rfl).bind fun trees trees' left left' hts hl _ => ?_
      exact .ok (.cons ht hts) hl

end Reading

/-- Each rule reads corresponding tokens in corresponding ways. -/
theorem Rule.corresponds_reading {R : Token → Token → Prop} (hR : KeepsKinds R) (rule : Rule) :
    Reading.Corresponds R (List.Forall₂ (Expr.Corresponds R)) rule.reading rule.reading := by
  cases rule with
  | expression =>
    exact (Reading.corresponds_operators hR _).bind fun _ _ h => .pure (.cons h .nil)
  | assignment =>
    refine (Reading.corresponds_assignment hR).bind fun _ _ h => .pure ?_
    cases h with
    | none => exact .nil
    | some h => exact .cons h .nil
  | unary => exact (Reading.corresponds_unaryStatement hR).bind fun _ _ h => .pure (.cons h .nil)
  | program => exact Reading.corresponds_program hR

end BoolScript
