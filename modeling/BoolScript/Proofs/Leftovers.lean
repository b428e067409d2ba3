import BoolScript.Proofs.CorrectPrefix

/-!
# What the rules take and what they leave

A rule of the grammar takes tokens from the front and never gives one back, so the tokens it leaves
are the end of those it was given. If it fails, the error names the place where they begin: the
token that was refused is still there. If it reads a tree, it has taken a token for it. Hence a
program is read to its end, whatever the tokens are, in no more statements than there are tokens
(`rules_keep_their_place`).

## Shape of the bookkeeping

To `Trims` and `Takes` comes a third property that sequencing keeps, `Points`: a failure names the
place where the tokens left over begin. The statements of a program are read one behind the other
(`ReadsStatements`), each of them from the tokens that the one in front has left.
-/

namespace BoolScript.Reading

/-! ## The place that a failure names -/

/-- A failure names the place where the tokens left over begin. -/
def Points {α : Type} (reading : Reading α) : Prop :=
  ∀ tokens error rest, reading tokens = .error error rest →
    error.location? = some (.ofTokens rest)

section

variable {α β : Type}

theorem Points.pure (answer : α) : Points (pure answer : Reading α) := by
  intro tokens error rest h
  cases h

theorem Points.bind {reading : Reading α} {next : α → Reading β} (h : Points reading)
    (hn : ∀ answer, Points (next answer)) : Points (reading >>= next) := by
  intro tokens error rest hr
  rcases bind_eq_error_iff.1 hr with he | ⟨answer, middle, -, he⟩
  · exact h tokens error rest he
  · exact hn answer middle error rest he

theorem Points.get_bind {next : List Token → Reading α} (h : ∀ tokens, Points (next tokens)) :
    Points (get >>= next) :=
  fun tokens => h tokens tokens

end

theorem points_expect (kinds : List Kind) : Points (expect kinds) := by
  intro tokens error rest h
  cases tokens with
  | nil =>
    cases h
    rfl
  | cons token others =>
    by_cases hk : token.kind ∈ kinds
    · rw [expect_cons hk] at h
      cases h
    · rw [expect_of_not (by simpa using hk)] at h
      cases h
      rfl

theorem points_element : Points element := by
  intro tokens error rest h
  cases tokens with
  | nil =>
    cases h
    rfl
  | cons token others =>
    cases hl : leaf? token with
    | some leaf =>
      rw [element_cons hl] at h
      cases h
    | none =>
      rw [element_of_not (by simpa using hl)] at h
      cases h
      rfl

/-- What is missing is missing at the given place. -/
theorem Partial.location?_of_result {state : Partial} {location : Location} {error : SyntaxError}
    (h : state.result location = .error error) : error.location? = some location := by
  unfold result at h
  split at h <;> cases h <;> rfl

theorem points_operators (strength : Strength) : Points (operators strength) := by
  intro tokens error rest h
  unfold operators at h
  obtain ⟨stopped, left⟩ := Partial.start.shiftAll strength tokens
  dsimp only at h
  split at h
  · cases h
  · next hr =>
    cases h
    exact Partial.location?_of_result hr

theorem points_assignmentStatement : Points assignmentStatement :=
  points_element.bind fun _ => (points_expect _).bind fun _ => points_element.bind fun _ =>
    (points_expect _).bind fun _ => .pure _

theorem points_assignment : Points assignment :=
  .get_bind fun tokens => by
    split
    · exact points_assignmentStatement.bind fun _ => .pure _
    · exact .pure _

theorem points_unaryForm : Points unaryForm := by
  intro tokens error rest h
  rw [unaryForm, get_bind_apply] at h
  split at h
  · exact (points_element.bind fun _ => (points_expect _).bind fun _ => .pure _) _ _ _ h
  · split at h
    · exact ((points_expect _).bind fun _ => points_element.bind fun _ => .pure _) _ _ _ h
    · cases h
      rfl

theorem points_unaryStatement : Points unaryStatement :=
  points_unaryForm.bind fun _ => (points_expect _).bind fun _ => .pure _

theorem points_terminator : Points terminator :=
  .get_bind fun tokens => by
    split
    · exact (points_expect _).bind fun _ => .pure _
    · exact .pure _

theorem points_expressionStatement : Points expressionStatement :=
  (points_operators _).bind fun _ => points_terminator.bind fun _ => .pure _

theorem points_statement : Points statement :=
  .get_bind fun tokens => by
    split
    · exact points_assignmentStatement
    · split
      · exact points_unaryStatement
      · exact points_expressionStatement

theorem points_program : Points program := by
  intro tokens error rest h
  obtain ⟨taken, -, -, hp, he⟩ := exists_of_program_eq_error h
  cases rest with
  | nil => exact he rfl
  | cons next others => exact (hp next others rfl).1

/-! ## Assignments -/

/-- The rule for assignments reads none where none starts, and takes nothing then. -/
theorem assignment_eq_none_iff {tokens rest : List Token} :
    assignment tokens = .ok none rest ↔ startsAssignment tokens = false ∧ rest = tokens := by
  rw [assignment, get_bind_apply]
  split
  · next ha =>
    rw [bind_eq_ok_iff]
    constructor
    · rintro ⟨tree, left, -, hp⟩
      cases (pure_eq_ok_iff.1 hp).1
    · rintro ⟨hn, -⟩
      rw [ha] at hn
      cases hn
  · next ha =>
    rw [pure_eq_ok_iff, Bool.eq_false_iff]
    exact ⟨fun h => ⟨ha, h.2.symm⟩, fun h => ⟨rfl, h.2.symm⟩⟩

/-! ## Programs -/

/-- These statements stand at the front of the tokens, one behind the other, and these tokens behind
them. -/
inductive ReadsStatements : List Token → List Expr → List Token → Prop where
  | nil (tokens : List Token) : ReadsStatements tokens [] tokens
  | cons {tokens middle rest : List Token} {tree : Expr} {trees : List Expr}
    (h : statement tokens = .ok tree middle) (ht : ReadsStatements middle trees rest) :
    ReadsStatements tokens (tree :: trees) rest

/-- Every statement takes a token at least. -/
theorem ReadsStatements.length_le {tokens rest : List Token} {trees : List Expr}
    (h : ReadsStatements tokens trees rest) : trees.length + rest.length ≤ tokens.length := by
  induction h with
  | nil tokens => simp
  | cons h _ ih =>
    have := takes_statement _ _ _ h
    rw [List.length_cons]
    omega

/-- A program is read statement by statement, until no token is left or a statement fails. -/
theorem exists_readsStatements (tokens : List Token) :
    ∃ trees rest, ReadsStatements tokens trees rest ∧
      (rest = [] ∧ program tokens = .ok trees [] ∨
        ∃ error left, rest ≠ [] ∧ statement rest = .error error left ∧
          program tokens = .error error left) := by
  induction h : tokens.length using Nat.strongRecOn generalizing tokens with
  | _ length ih =>
    cases tokens with
    | nil => exact ⟨[], [], .nil [], .inl ⟨rfl, program_nil⟩⟩
    | cons token others =>
      rw [program_cons]
      cases hs : statement (token :: others) with
      | error error left =>
        exact ⟨[], _, .nil _, .inr ⟨error, left, by simp, hs, bind_of_error hs⟩⟩
      | ok tree middle =>
        have hlt : middle.length < length := h ▸ takes_statement _ _ _ hs
        obtain ⟨trees, rest, hr, hend⟩ := ih middle.length hlt middle rfl
        refine ⟨tree :: trees, rest, .cons hs hr, ?_⟩
        rcases hend with ⟨rfl, hp⟩ | ⟨error, left, hne, he, hp⟩
        · exact .inl ⟨rfl, by rw [bind_of_ok hs, bind_of_ok hp]; rfl⟩
        · exact .inr ⟨error, left, hne, he, by rw [bind_of_ok hs, bind_of_error hp]⟩

/-- The rules keep their place in the tokens. Whether a rule answers or fails, what it leaves is the
end of what it was given, and a failure names the place where this begins. Reading a tree takes a
token. The rule for assignments reads none exactly where a name and an assignment sign do not come
next, and leaves all tokens then. A program comes to its end: statements are read one behind the
other, never more of them than there are tokens, until no token is left or one of them fails. -/
theorem rules_keep_their_place :
    (∀ rule ∈ [expression, conjunction, factor, element, statement, unaryStatement],
      Trims rule ∧ Points rule ∧ Takes rule) ∧
    (Trims assignment ∧ Points assignment ∧
      (∀ tokens tree rest, assignment tokens = .ok (some tree) rest →
        rest.length < tokens.length) ∧
      ∀ tokens rest, assignment tokens = .ok none rest ↔ rest = tokens ∧
        ¬ ∃ target sign others, tokens = target :: sign :: others ∧
          target.kind = .name ∧ sign.kind = .assign) ∧
    Trims program ∧ Points program ∧
      ∀ tokens,
        (∀ trees rest, ReadsStatements tokens trees rest → trees.length ≤ tokens.length) ∧
        ∃ trees rest, ReadsStatements tokens trees rest ∧
          (rest = [] ∧ program tokens = .ok trees [] ∨
            ∃ error left, rest ≠ [] ∧ statement rest = .error error left ∧
              program tokens = .error error left) := by
  refine ⟨?_, ⟨trims_assignment, points_assignment, ?_, ?_⟩, trims_program, points_program, ?_⟩
  · have hoperators (strength : Strength) : Trims (operators strength) ∧
        Points (operators strength) ∧ Takes (operators strength) :=
      ⟨trims_operators strength, points_operators strength, takes_operators strength⟩
    simp only [List.forall_mem_cons, List.not_mem_nil, false_implies, implies_true, and_true]
    exact ⟨hoperators _, hoperators _, hoperators _, ⟨trims_element, points_element, takes_element⟩,
      ⟨trims_statement, points_statement, takes_statement⟩,
      trims_unaryStatement, points_unaryStatement, takes_unaryStatement⟩
  · intro tokens tree rest h
    exact takes_assignmentStatement _ _ _ (assignment_eq_some_iff.1 h).2
  · intro tokens rest
    rw [assignment_eq_none_iff, and_comm, ← startsAssignment_iff, Bool.not_eq_true]
  · intro tokens
    refine ⟨fun trees rest h => ?_, exists_readsStatements tokens⟩
    have := h.length_le
    omega

end BoolScript.Reading
