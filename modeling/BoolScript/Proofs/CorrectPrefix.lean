import BoolScript.Proofs.ProgramGrammar
import BoolScript.Proofs.Progress

/-!
# Errors stand where programs become impossible

Reading a program fails at the first token that no program has there, and never before it. The
tokens in front of that token start some program; together with it they start none, whatever
follows. A failure at the end of the tokens says that they start a program and are none themselves.
The programs that are meant are those that are read to their end, which are those of the grammar
(`isProgram_iff`).

## Shape of the proof

Whatever a program has been read into, some tokens lead from there to the end of a program
(`Progress.exists_read_eq_ok`): an operand where one is missing, then the closing parentheses, then
a semicolon. A token that is refused is refused by the stage that the tokens in front of it lead to
(`Progress.exists_shiftAll`), and nothing behind it is looked at.
-/

namespace BoolScript

/-- The place that an error of the grammar names. -/
def SyntaxError.location? : SyntaxError → Option Location
  | expected _ location | expectedOperand location => some location
  | unknownCharacter _ _ => none

namespace Reading

/-- The tokens are a program from the first to the last. -/
def IsProgram (tokens : List Token) : Prop :=
  ∃ trees, program tokens = .ok trees []

/-- The programs are those of the grammar. -/
theorem isProgram_iff {tokens : List Token} :
    IsProgram tokens ↔ ∃ d : ProgramDerivation, d.tokens = tokens := by
  constructor
  · rintro ⟨trees, h⟩
    obtain ⟨d, hd, -⟩ := ProgramDerivation.exists_of_program h
    exact ⟨d, hd⟩
  · rintro ⟨d, rfl⟩
    exact ⟨d.trees, d.program_tokens⟩

theorem Stage.location?_missing (stage : Stage) (location : Location) :
    (stage.missing location).location? = some location := by
  match stage with
  | .ready | .operand _ | .opened _ _ | .ending _ => rfl
  | .inside (.awaiting _ _) | .inside (.holding [] _ _) | .inside (.holding (_ :: _) _ _) => rfl

namespace Progress

/-! ## Stopping -/

/-- The tokens in front of the place where shifting stops lead there, whatever stands behind. -/
theorem exists_shiftAll (progress : Progress) (tokens : List Token) :
    ∃ taken rest stopped, tokens = taken ++ rest ∧ progress.shiftAll tokens = (stopped, rest) ∧
      (∀ more, progress.read (taken ++ more) = stopped.read more) ∧
      ∀ token ∈ rest.head?, stopped.shift token = none := by
  induction tokens generalizing progress with
  | nil => exact ⟨[], [], progress, rfl, rfl, fun _ => rfl, by simp⟩
  | cons token others ih =>
    cases hs : progress.shift token with
    | none =>
      refine ⟨[], token :: others, progress, rfl, ?_, fun _ => rfl, by simpa using hs⟩
      rw [shiftAll, hs]
    | some next =>
      obtain ⟨taken, rest, stopped, rfl, hr, hm, hn⟩ := ih next
      refine ⟨token :: taken, rest, stopped, rfl, ?_, ?_, hn⟩
      · rw [shiftAll, hs]
        exact hr
      · intro more
        rw [List.cons_append, read_of_shift hs, hm]

/-! ## Completing -/

/-- A truth word, a closing parenthesis and a semicolon complete whatever is missing. -/
def someOperand : Token := ⟨.trueWord, "true", 0⟩

@[inherit_doc someOperand]
def someClosing : Token := ⟨.closeParen, ")", 0⟩

@[inherit_doc someOperand]
def someSemicolon : Token := ⟨.semicolon, ";", 0⟩

/-- A complete operand ends a program behind as many parentheses as are open around it. -/
theorem exists_read_holding (done : List Expr) (outer : List Level) (level : Level)
    (operand : Expr) :
    ∃ more trees, (mk done (.inside (.holding outer level operand))).read more = .ok trees [] := by
  induction outer generalizing level operand with
  | nil => exact ⟨[], _, rfl⟩
  | cons around outer ih =>
    obtain ⟨more, trees, h⟩ := ih around (level.close operand)
    have hs : (mk done (.inside (.holding (around :: outer) level operand))).shift someClosing =
        some ⟨done, .inside (.holding outer around (level.close operand))⟩ := rfl
    exact ⟨someClosing :: more, trees, (read_of_shift hs more).trans h⟩

theorem exists_read_ending (done : List Expr) (tree : Expr) :
    ∃ more trees, (mk done (.ending tree)).read more = .ok trees [] :=
  ⟨[someSemicolon], _, rfl⟩

/-- Every progress is on the way to a program. -/
theorem exists_read_eq_ok (progress : Progress) :
    ∃ more trees, progress.read more = .ok trees [] := by
  obtain ⟨done, stage⟩ := progress
  match stage with
  | .ready => exact ⟨[], _, rfl⟩
  | .opened first leaf => exact ⟨[], _, rfl⟩
  | .inside (.holding outer level operand) => exact exists_read_holding done outer level operand
  | .inside (.awaiting outer level) =>
    obtain ⟨more, trees, h⟩ := exists_read_holding done outer level (.literal "true" 0)
    have hs : (mk done (.inside (.awaiting outer level))).shift someOperand =
        some ⟨done, .inside (.holding outer level (.literal "true" 0))⟩ := rfl
    exact ⟨someOperand :: more, trees, (read_of_shift hs more).trans h⟩
  | .operand complete =>
    obtain ⟨more, trees, h⟩ := exists_read_ending done (complete (.literal "true" 0))
    have hs : (mk done (.operand complete)).shift someOperand =
        some ⟨done, .ending (complete (.literal "true" 0))⟩ := rfl
    exact ⟨someOperand :: more, trees, (read_of_shift hs more).trans h⟩
  | .ending tree => exact exists_read_ending done tree

end Progress

/-! ## Failures of programs -/

/-- The tokens in front of a failure can be completed to a program. A token at which it fails is
named by the error, and the failure stays the same whatever follows; otherwise the end is named. -/
theorem exists_of_program_eq_error {tokens rest : List Token} {error : SyntaxError}
    (h : program tokens = .error error rest) :
    ∃ taken, tokens = taken ++ rest ∧ (∃ more, IsProgram (taken ++ more)) ∧
      (∀ next others, rest = next :: others → error.location? = some (.position next.position) ∧
        ∀ more, program (taken ++ [next] ++ more) = .error error (next :: more)) ∧
      (rest = [] → error.location? = some .endOfInput) := by
  rw [program_eq_read] at h
  obtain ⟨taken, left, stopped, rfl, hs, hm, hn⟩ := Progress.start.exists_shiftAll tokens
  have hm (more : List Token) : program (taken ++ more) = stopped.read more := by
    rw [program_eq_read]
    exact hm more
  rw [Progress.read, hs] at h
  -- Whatever stage the tokens in front lead to, it is on the way to a program.
  have hc : ∃ more, IsProgram (taken ++ more) := by
    obtain ⟨more, trees, hr⟩ := stopped.exists_read_eq_ok
    exact ⟨more, trees, (hm more).trans hr⟩
  cases left with
  | nil =>
    rw [Progress.answer] at h
    split at h
    · cases h
    · cases h
      exact ⟨taken, rfl, hc, by simp, fun _ => stopped.stage.location?_missing _⟩
  | cons token others =>
    cases h
    refine ⟨taken, rfl, hc, ?_, by simp⟩
    rintro next others' he
    obtain ⟨rfl, rfl⟩ := List.cons.inj he
    refine ⟨stopped.stage.location?_missing _, fun more => ?_⟩
    -- The refusal depends on the stage and this token alone.
    rw [List.append_assoc, List.singleton_append, hm, Progress.read_of_refused (hn token rfl)]
    rfl

theorem isProgram_or_exists_error (tokens : List Token) :
    IsProgram tokens ∨ ∃ error rest, program tokens = .error error rest := by
  cases h : program tokens with
  | ok trees rest =>
    rw [eq_nil_of_program h] at h
    exact .inl ⟨trees, h⟩
  | error error rest => exact .inr ⟨error, rest, rfl⟩

theorem not_isProgram_of_error {tokens rest : List Token} {error : SyntaxError}
    (h : program tokens = .error error rest) : ¬ IsProgram tokens := by
  rintro ⟨trees, hp⟩
  rw [hp] at h
  cases h

/-- A failure names the end of the tokens, which can then be completed, or a position, and then
nothing completes them. -/
theorem location_of_program_eq_error {tokens rest : List Token} {error : SyntaxError}
    (h : program tokens = .error error rest) :
    (error.location? = some .endOfInput ∧ ∃ more, IsProgram (tokens ++ more)) ∨
      ((∃ position, error.location? = some (.position position)) ∧
        ∀ more, ¬ IsProgram (tokens ++ more)) := by
  obtain ⟨taken, rfl, hc, hp, he⟩ := exists_of_program_eq_error h
  cases rest with
  | nil =>
    left
    rw [List.append_nil]
    exact ⟨he rfl, hc⟩
  | cons next others =>
    right
    obtain ⟨hl, ha⟩ := hp next others rfl
    refine ⟨⟨next.position, hl⟩, fun more => ?_⟩
    have := ha (others ++ more)
    rw [List.append_assoc, List.singleton_append] at this
    rw [List.append_assoc, List.cons_append]
    exact not_isProgram_of_error this

/-- Programs are read with the correct-prefix property. The tokens in front of a failure start a
program. A token that reading fails at is named by its position, and no program has it there: the
failure is the same whatever follows. So reading fails at the end of the tokens exactly if they are
no program and some continuation of them is, and at a position exactly if no continuation is. -/
theorem program_fails_at_correct_prefix (tokens : List Token) :
    (∀ error rest, program tokens = .error error rest →
      ∃ taken, tokens = taken ++ rest ∧ (∃ more, IsProgram (taken ++ more)) ∧
        (∀ next others, rest = next :: others →
          error.location? = some (.position next.position) ∧
            ∀ more, program (taken ++ [next] ++ more) = .error error (next :: more)) ∧
        (rest = [] → error.location? = some .endOfInput)) ∧
    ((∃ error rest, program tokens = .error error rest ∧ error.location? = some .endOfInput) ↔
      ¬ IsProgram tokens ∧ ∃ more, IsProgram (tokens ++ more)) ∧
    ((∃ error rest position, program tokens = .error error rest ∧
        error.location? = some (.position position)) ↔
      ∀ more, ¬ IsProgram (tokens ++ more)) := by
  refine ⟨fun error rest h => exists_of_program_eq_error h, ⟨?_, ?_⟩, ⟨?_, ?_⟩⟩
  · rintro ⟨error, rest, h, he⟩
    rcases location_of_program_eq_error h with ⟨-, hc⟩ | ⟨⟨position, hp⟩, -⟩
    · exact ⟨not_isProgram_of_error h, hc⟩
    · rw [he] at hp
      cases hp
  · rintro ⟨hn, more, hm⟩
    obtain ⟨error, rest, h⟩ := (isProgram_or_exists_error tokens).resolve_left hn
    rcases location_of_program_eq_error h with ⟨he, -⟩ | ⟨-, hc⟩
    · exact ⟨error, rest, h, he⟩
    · exact absurd hm (hc more)
  · rintro ⟨error, rest, position, h, hp⟩
    rcases location_of_program_eq_error h with ⟨he, -⟩ | ⟨-, hc⟩
    · rw [hp] at he
      cases he
    · exact hc
  · intro hc
    have hn : ¬ IsProgram tokens := by
      have := hc []
      rwa [List.append_nil] at this
    obtain ⟨error, rest, h⟩ := (isProgram_or_exists_error tokens).resolve_left hn
    rcases location_of_program_eq_error h with ⟨-, more, hm⟩ | ⟨⟨position, hp⟩, -⟩
    · exact absurd hm (hc more)
    · exact ⟨error, rest, position, h, hp⟩

end Reading

end BoolScript
